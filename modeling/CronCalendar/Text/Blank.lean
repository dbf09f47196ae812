/-!
# Blank characters

A blank is a character with the Unicode property `White_Space`. Entries are cut into fields at
blanks, and settings read from variables are trimmed of them. The table lists all of them: six
controls and the space in ASCII, and eighteen beyond it.
-/

namespace CronCalendar.Text

def blanks : List Char :=
  ['\t', '\n', '\x0b', '\x0c', '\r', ' ', '\u0085', '\u00a0', '\u1680',
    '\u2000', '\u2001', '\u2002', '\u2003', '\u2004', '\u2005', '\u2006', '\u2007', '\u2008',
    '\u2009', '\u200a', '\u2028', '\u2029', '\u202f', '\u205f', '\u3000']

def isBlank (c : Char) : Bool := blanks.contains c

def trim (cs : List Char) : List Char :=
  ((cs.dropWhile isBlank).reverse.dropWhile isBlank).reverse

end CronCalendar.Text
