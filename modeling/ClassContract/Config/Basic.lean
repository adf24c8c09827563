import ClassContract.Config.Commented
import ClassContract.Failure
import ClassContract.Options

/-!
# Configurations

A configuration is JSON with comments. Its section on options may leave every setting open, and
truth values may be written as words; its section on logging has a filter and a format.
`Settings.resolve` turns settings into options, `Config.ofText` reads a configuration.
-/

namespace ClassContract

/-- Settings of options, each of which may be left open. -/
structure Settings where
  /-- Whether to be strict. -/
  strict : Option Bool
  /-- Whether to report abstract members of a concrete class. -/
  reportAbstractInConcrete : Option Bool
  /-- Whether to report accessors of which only one is abstract. -/
  reportAccessorAbstractness : Option Bool
  /-- Whether to accept a field where only a setter is required. -/
  fieldSatisfiesWriteOnly : Option Bool
  deriving DecidableEq

namespace Settings

/-- Settings that leave everything open. -/
def unset : Settings := ⟨none, none, none, none⟩

/-- The truth value of a word, whatever its case and the blanks around it. -/
def ofWord? (s : String) : Option Bool :=
  let word := settingWord s
  if ["true", "1", "yes", "on"].contains word then some true
  else if ["false", "0", "no", "off"].contains word then some false
  else none

/-- Read a truth value or a word for one. -/
def flagDecoder : Decoder Bool
  | _, .bool b => .ok b
  | _, .string ps => do
    let s ← Decoder.readPieces ps
    match ofWord? s with
    | some b => return b
    | none => .error (.booleanWord s)
  | _, v => .error (.wrongShape v.shape .flag)

/-- Read settings. -/
def decoder : Decoder Settings :=
  .record "Settings" unset
    [.may "strict" (.optional flagDecoder) fun v s => { s with strict := v },
      .may "reportAbstractInConcreteClass" (.optional flagDecoder)
        fun v s => { s with reportAbstractInConcrete := v },
      .may "reportAccessorAbstractness" (.optional flagDecoder)
        fun v s => { s with reportAccessorAbstractness := v },
      .may "fieldSatisfiesWriteOnly" (.optional flagDecoder)
        fun v s => { s with fieldSatisfiesWriteOnly := v }]

/-- The options of settings: strictness decides what is left open, and every setting wins. -/
def resolve (s : Settings) : Options :=
  let base := { Options.initial with strict := s.strict.getD false }.completed
  { strict := base.strict
    reportAbstractInConcrete := s.reportAbstractInConcrete.getD base.reportAbstractInConcrete
    reportAccessorAbstractness :=
      s.reportAccessorAbstractness.getD base.reportAccessorAbstractness
    fieldSatisfiesWriteOnly := s.fieldSatisfiesWriteOnly.getD base.fieldSatisfiesWriteOnly }

end Settings

/-- The section on logging. -/
structure LogSection where
  /-- Which events are logged. -/
  filter : Option String
  /-- How they are written. -/
  format : Option String
  deriving DecidableEq

/-- Read a section on logging. -/
def LogSection.decoder : Decoder LogSection :=
  .record "LogSection" ⟨none, none⟩
    [.may "filter" (.optional .text) fun v s => { s with filter := v },
      .may "format" (.optional .text) fun v s => { s with format := v }]

/-- A configuration. -/
structure Config where
  /-- The settings, if there is a section on them. -/
  settings : Option Settings
  /-- The section on logging, if there is one. -/
  log : Option LogSection
  deriving DecidableEq

namespace Config

/-- Read a configuration from JSON. -/
def decoder : Decoder Config :=
  .record "Config" ⟨none, none⟩
    [.may "checkerOptions" (.optional Settings.decoder) fun v c => { c with settings := v },
      .may "log" (.optional LogSection.decoder) fun v c => { c with log := v }]

/-- The options of a configuration. -/
def options (c : Config) : Options := (c.settings.getD Settings.unset).resolve

/-- Read a configuration from a text with comments. -/
def ofText (source : String) : Except Failure Config :=
  readDocument "failed to parse contra config JSON" decoder (plainJson source.toList)

/-- Read a configuration from the bytes of a file; none means that there is no such file. -/
def ofFile (path : String) (content : Option ByteArray) : Except Failure Config :=
  match content.bind String.fromUTF8? with
  | none => .error ⟨["failed to read contra config: " ++ path], .unreadable⟩
  | some source =>
    (ofText source).mapError (Failure.within ("failed to parse contra config: " ++ path))

end Config

end ClassContract
