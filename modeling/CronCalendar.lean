import CronCalendar.Entry.Preset
import CronCalendar.Log.Session
import CronCalendar.Proofs.Config
import CronCalendar.Proofs.Field.Values
import CronCalendar.Proofs.Field.Bisection
import CronCalendar.Proofs.Calendar.Order
import CronCalendar.Proofs.Calendar.Neighbours
import CronCalendar.Proofs.Search.Course
import CronCalendar.Proofs.Search.Slot
import CronCalendar.Proofs.Search.Backward
import CronCalendar.Proofs.Search.Forward
import CronCalendar.Proofs.Search.Conduct
import CronCalendar.Proofs.Search.Nearest
import CronCalendar.Proofs.Calendar.Gregorian
import CronCalendar.Proofs.Search.Threshold
import CronCalendar.Proofs.Search.Budget
import CronCalendar.Proofs.Search.Trail
import CronCalendar.Proofs.Search.Words
import CronCalendar.Proofs.Search.Range
import CronCalendar.Proofs.Entry.Schedule
import CronCalendar.Proofs.Entry.Adjacent
import CronCalendar.Proofs.Entry.Enumeration
import CronCalendar.Proofs.Entry.Tour
import CronCalendar.Proofs.Entry.Denotation
import CronCalendar.Proofs.Field.Grammar
import CronCalendar.Proofs.Field.Reason
import CronCalendar.Proofs.Entry.Display
import CronCalendar.Proofs.Entry.Fault
import CronCalendar.Proofs.Log.Live
import CronCalendar.Proofs.Log.Filter
import CronCalendar.Proofs.Log.Trail
import CronCalendar.Proofs.Log.Initialisation
import CronCalendar.Proofs.Log.Lines
