import ClassContract.Config.Basic

/-!
# Logging settings

Whether and how events are logged is decided by the environment first and by configuration sections
after it. A blank value of the environment counts as absent, and so does a blank filter of a
section; a format of a section is a choice whatever it says.
-/

namespace ClassContract

/-- How events are written. -/
inductive LogFormat
  | text
  | tree
  | json
  deriving DecidableEq

namespace LogFormat

/-- The format of a word; every unknown word means plain text. -/
def ofWord (s : String) : LogFormat :=
  let word := settingWord s
  if word == "tree" then .tree else if word == "json" then .json else .text

/-- The name of a format. -/
def name : LogFormat → String
  | .text => "Text"
  | .tree => "Tree"
  | .json => "Json"

end LogFormat

/-- Settings of logging. -/
structure Logging where
  /-- Which events are logged; nothing is logged without a filter. -/
  filter : Option String
  /-- How events are written. -/
  format : LogFormat
  /-- Whether the format was chosen. -/
  formatChosen : Bool
  deriving DecidableEq

namespace Logging

/-- Settings that are given in full. -/
def chosen (filter : String) (format : LogFormat) : Logging := ⟨some filter, format, true⟩

/-- The value of a variable unless it is blank. -/
def nonBlank (lookup : String → Option String) (key : String) : Option String :=
  (lookup key).filter (!isBlankText ·)

/-- The settings of an environment. -/
def ofEnvironment (lookup : String → Option String) : Logging :=
  let format := nonBlank lookup "CONTRA_LOG_FORMAT"
  { filter := (nonBlank lookup "CONTRA_LOG").or (nonBlank lookup "RUST_LOG")
    format := (format.map LogFormat.ofWord).getD .text
    formatChosen := format.isSome }

/-- Fill in from a section what is still open. -/
def fill (l : Logging) (s : LogSection) : Logging :=
  { filter := l.filter.or (s.filter.filter (!isBlankText ·))
    format := if l.formatChosen then l.format else (s.format.map LogFormat.ofWord).getD l.format
    formatChosen := l.formatChosen || s.format.isSome }

/-- Fill in from a section that may be absent. -/
def fill? (l : Logging) : Option LogSection → Logging
  | some s => l.fill s
  | none => l

/-- Fill in from sections one after the other. -/
def fillAll (l : Logging) (sections : List (Option LogSection)) : Logging := sections.foldl fill? l

/-- Whether anything is logged. -/
def isEnabled (l : Logging) : Bool := l.filter.isSome

/-- Whether logging starts, given whether it has been started before. -/
def starts (l : Logging) (running : Bool) : Bool := l.isEnabled && !running

/-- The outcome of starting twice in a row. -/
def startTwice (l : Logging) : Bool × Bool :=
  let first := l.starts false
  (first, l.starts first)

end Logging

/-- The logging settings of a configuration in an environment. -/
def Config.logging (c : Config) (lookup : String → Option String) : Logging :=
  (Logging.ofEnvironment lookup).fill? c.log

end ClassContract
