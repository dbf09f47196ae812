import CronCalendar.Proofs.Search.Backward
import CronCalendar.Proofs.Search.Forward
import CronCalendar.Search.Nearest

/-!
# The walk of an entry

The two directions have their own positions and moves. What the theorems about queries need of them
is the same, and `conduct` collects it: a lawful course on which the entry walks, and a start that
has the admitted minutes from the given one on ahead of it.
-/

namespace CronCalendar

namespace Entry

open Search

def taken (e : Entry) (d : Direction) (limit : Nat) (m : Minute) : Nat :=
  match d with
  | .forward => Search.taken (Forward.move e) limit (Forward.start e m)
  | .backward => Search.taken (Backward.move e) limit (Backward.start e m)

def turnedAway (e : Entry) (d : Direction) (limit : Nat) (m : Minute) : List Minute :=
  match d with
  | .forward => Search.turnedAway (Forward.move e) limit (Forward.start e m)
  | .backward => Search.turnedAway (Backward.move e) limit (Backward.start e m)

structure Conduct (e : Entry) (d : Direction) (m : Minute) where
  Position : Type
  move : Position → Move Position
  course : Course Position
  start : Position
  walk_eq : ∀ limit, e.walk d limit m = Search.walk move 0 limit start
  taken_eq : ∀ limit, e.taken d limit m = Search.taken move limit start
  turnedAway_eq : ∀ limit, e.turnedAway d limit m = Search.turnedAway move limit start
  governs : course.Governs e move
  sound : course.Sound start
  direction : course.direction = d
  ahead : ∀ u, e.Admits u → (course.Ahead start u ↔ d.Leads m u)
  slack_le : course.slack start ≤ 1213
  days_le : course.days start ≤ 38784

def conduct (e : Entry) (d : Direction) (m : Minute) : Conduct e d m :=
  match d with
  | .forward => {
      Position := Forward.Position
      move := Forward.move e
      course := Forward.course e
      start := Forward.start e m
      walk_eq := fun _ => rfl
      taken_eq := fun _ => rfl
      turnedAway_eq := fun _ => rfl
      governs := Forward.governs e
      sound := (Forward.start_seeks m).sound
      direction := rfl
      ahead := (Forward.start_seeks m).ahead
      slack_le := Forward.slack_le _
      days_le := Forward.days_le _ }
  | .backward => {
      Position := Backward.Position
      move := Backward.move e
      course := Backward.course e
      start := Backward.start e m
      walk_eq := fun _ => rfl
      taken_eq := fun _ => rfl
      turnedAway_eq := fun _ => rfl
      governs := Backward.governs e
      sound := (Backward.start_seeks m).sound
      direction := rfl
      ahead := (Backward.start_seeks m).ahead
      slack_le := Backward.slack_le _
      days_le := Backward.days_le _ }

theorem lawfulWalk (e : Entry) (d : Direction) (limit : Nat) (m : Minute) :
    (e.conduct d m).course.LawfulWalk e (e.conduct d m).move 0 limit (e.conduct d m).start
      (e.walk d limit m) := by
  rw [(e.conduct d m).walk_eq]
  exact (e.conduct d m).governs.lawfulWalk 0 limit (e.conduct d m).sound

theorem rejected_walk (e : Entry) (d : Direction) (limit : Nat) (m : Minute) :
    (e.walk d limit m).rejected = e.turnedAway d limit m := by
  rw [(e.conduct d m).turnedAway_eq]
  exact (e.lawfulWalk d limit m).rejected_eq_turnedAway

theorem walk_settles (e : Entry) (d : Direction) (limit : Nat) (m : Minute) :
    (e.walk d limit m).outcome.Settles e d (d.Leads m) limit := by
  have hsettles := (e.lawfulWalk d limit m).settles
  rw [(e.conduct d m).direction, Nat.zero_add] at hsettles
  exact hsettles.of_ahead fun u hu => (e.conduct d m).ahead u (fires_iff.mp hu).1

end Entry

end CronCalendar
