import ClassContract.Contract.Finding
import ClassContract.Options

/-!
# Events

What happens during a check is told as events. Some of them open a longer activity, all have a
level, a message and named values; `Event.entry` gives these.
-/

namespace ClassContract

/-- How detailed an event is. -/
inductive Level
  | info
  | debug
  | trace
  deriving DecidableEq

/-- The name of a level. -/
def Level.name : Level → String
  | .info => "INFO"
  | .debug => "DEBUG"
  | .trace => "TRACE"

/-- A value that an event carries. -/
inductive EventValue
  | text (s : String)
  | count (n : Nat)
  | flag (b : Bool)
  deriving DecidableEq

/-- An event as it is written. -/
structure EventEntry where
  /-- Whether the event opens an activity. -/
  opens : Bool
  /-- How detailed it is. -/
  level : Level
  /-- What it says. -/
  message : String
  /-- The values it carries. -/
  values : List (String × EventValue)
  deriving DecidableEq

/-- Something that happens. -/
inductive Event
  /-- The check of a class begins. -/
  | classOpened (name : String)
  /-- The check of independent classes begins. -/
  | batchOpened (size : Nat)
  /-- The check of a hierarchy begins. -/
  | hierarchyOpened (size : Nat)
  /-- Independent classes were read from a text. -/
  | batchRead (size : Nat)
  /-- A hierarchy was read from a text. -/
  | hierarchyRead (size : Nat)
  /-- The scope of a class is known. -/
  | scopeBuilt (name : String) (ancestors members names : Nat)
  /-- A check of the named class comes upon something. -/
  | found (name : String) (f : Finding)
  /-- A comparison of types went too deep. -/
  | cutOff (c : CutOff)
  /-- The check of a class ends. -/
  | classChecked (name : String) (violations pending : Nat)
  /-- An ancestor names a class checked before. -/
  | ancestorResolved (name : String) (pending members : Nat)
  /-- Options were read from a configuration, which may be a file. -/
  | optionsResolved (options : Options) (path : Option String)

namespace Event

/-- An entry that opens an activity. -/
def opening (level : Level) (message : String) (values : List (String × EventValue)) : EventEntry :=
  ⟨true, level, message, values⟩

/-- An entry of a single event. -/
def single (level : Level) (message : String) (values : List (String × EventValue)) : EventEntry :=
  ⟨false, level, message, values⟩

/-- The entry of a comparison that went too deep. -/
def cutOffEntry (c : CutOff) : EventEntry :=
  match c.relation with
  | .identity =>
    single .trace "identity depth limit reached"
      [("a", .text c.left.text), ("b", .text c.right.text)]
  | .assignability =>
    single .trace "relation depth limit reached"
      [("source", .text c.left.text), ("target", .text c.right.text)]

/-- The entry of a finding in the check of a class. -/
def findingEntry (name : String) : Finding → EventEntry
  | .examined member ownAbstract ownConcrete required =>
    single .trace "checking member"
      [("member", .text member), ("own_abstract", .count ownAbstract),
        ("own_concrete", .count ownConcrete), ("has_obligation", .flag required)]
  | .cutOff c => cutOffEntry c
  | .violation v =>
    single .debug "member contract violation"
      [("class", .text name), ("member", .text v.member), ("code", .text v.code.text)]
  | .deferral m =>
    single .trace "deferring obligation"
      [("class", .text name), ("member", .text m.name), ("kind", .text m.kind.text)]

/-- The entry of an event. -/
def entry : Event → EventEntry
  | .classOpened name => opening .debug "check_class" [("class", .text name)]
  | .batchOpened size => opening .info "check_classes" [("classes", .count size)]
  | .hierarchyOpened size => opening .info "check_hierarchy" [("classes", .count size)]
  | .batchRead size => single .debug "checking classes from JSON" [("classes", .count size)]
  | .hierarchyRead size =>
    single .debug "checking class hierarchy from JSON" [("classes", .count size)]
  | .scopeBuilt name ancestors members names =>
    single .debug "built member table"
      [("class", .text name), ("ancestors", .count ancestors), ("own_members", .count members),
        ("names", .count names)]
  | .found name f => findingEntry name f
  | .cutOff c => cutOffEntry c
  | .classChecked name violations pending =>
    single .debug "checked class"
      [("class", .text name), ("diagnostics", .count violations), ("pending", .count pending)]
  | .ancestorResolved name pending members =>
    single .debug "substituted checked ancestor"
      [("ancestor", .text name), ("pending", .count pending), ("members", .count members)]
  | .optionsResolved options path =>
    single .debug "resolved checker options"
      (("options", .text options.text) :: path.toList.map fun p => ("path", .text p))

end Event

end ClassContract
