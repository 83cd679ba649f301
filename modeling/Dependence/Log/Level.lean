/-!
# Log levels

The names of log levels, and their rank. Two names may have the same rank and are still told apart.

A level is read without regard to case. Upper-casing a letter gives a capital of a level name for
the small Latin letters, for the dotless i and for the long s; every other character is taken as
it is. No other character has an upper case made of one of those capitals, and those with an upper
case of several letters spell none of the names.
-/

namespace Dependence

/-- The names of levels. -/
inductive Level where
  | critical
  | fatal
  | error
  | warning
  | warn
  | info
  | debug
  | notset
deriving DecidableEq, Inhabited

namespace Level

/-- All names. -/
def all : List Level := [critical, fatal, error, warning, warn, info, debug, notset]

/-- The name in capitals. -/
def name : Level → String
  | critical => "CRITICAL"
  | fatal => "FATAL"
  | error => "ERROR"
  | warning => "WARNING"
  | warn => "WARN"
  | info => "INFO"
  | debug => "DEBUG"
  | notset => "NOTSET"

/-- The rank: records of a lower rank are not shown. -/
def rank : Level → Nat
  | critical => 50
  | fatal => 50
  | error => 40
  | warning => 30
  | warn => 30
  | info => 20
  | debug => 10
  | notset => 0

/-- The capital of a letter, as far as a level name can contain it. -/
def capital (c : Char) : Char :=
  if c = 'ı' then 'I'
  else if c = 'ſ' then 'S'
  else c.toUpper

/-- The level with the name `s`, in any case (`capital`). -/
def ofName? (s : String) : Option Level :=
  all.find? fun l => l.name.toList == s.toList.map capital

end Level

end Dependence
