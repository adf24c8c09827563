import ClassContract.Json.Document
import ClassContract.Json.Fault

/-!
# Decoding JSON values

A decoder turns a JSON value into a value of the program or names the fault it finds first, in the
order of the text. Records are objects with known keys, or arrays of the same values in the order of
the keys. A choice is a word, and a tagged value is a pair of a `kind` and a `value`. The name of a
record or tagged value serves messages only.

Members with other keys are skipped: nothing in them is looked at. All other arrays and objects may
be nested `maxLevels` deep. The `value` of a tagged value that precedes its `kind` is held until the
`kind` is known; then nothing in it can be skipped, and all of it has to be readable. In an array of
a kind and a value, a held kind may be given by its position among the kinds.
-/

namespace ClassContract

/-- The circumstances in which a value is read. -/
structure Reading where
  /-- How many arrays and objects may still be opened inside one another. -/
  levels : Nat
  /-- Whether the value was held until its kind was known. -/
  held : Bool

/-- Go into an array or object. -/
def Reading.enter (r : Reading) : Except Fault Reading :=
  match r.levels with
  | 0 => .error .tooDeep
  | n + 1 => .ok { r with levels := n }

/-- A way to read a JSON value. -/
abbrev Decoder (α : Type) := Reading → Json → Except Fault α

namespace Decoder

/-- How deep arrays and objects may be nested in a document. -/
def maxLevels : Nat := 127

/-- The string that pieces stand for. -/
def readPieces (ps : List Piece) : Except Fault String :=
  match decodePieces ps with
  | some cs => .ok (String.ofList cs)
  | none => .error .loneSurrogate

/-- A string. -/
def text : Decoder String
  | _, .string ps => readPieces ps
  | _, v => .error (.wrongShape v.shape .text)

/-- A truth value. -/
def bool : Decoder Bool
  | _, .bool b => .ok b
  | _, v => .error (.wrongShape v.shape .flag)

/-- A number. Whatever is read is finite. -/
def double : Decoder Double
  | _, .number n =>
    match n.toFinite? with
    | some x => .ok (.finite x)
    | none => .error .outOfRange
  | _, v => .error (.wrongShape v.shape .double)

/-- A count. -/
def count : Decoder Nat
  | _, .number n =>
    match n.toNat? with
    | some k => .ok k
    | none => .error (.wrongShape (.number n) .count)
  | _, v => .error (.wrongShape v.shape .count)

/-- A value or null. -/
def optional (d : Decoder α) : Decoder (Option α)
  | _, .null => .ok none
  | r, v => (d r v).map some

/-- Apply a function to what is read. -/
def map (f : α → β) (d : Decoder α) : Decoder β := fun r v => (d r v).map f

/-- Read the items of an array in order. -/
def readItems (d : Decoder α) (r : Reading) : List Json → Except Fault (List α)
  | [] => .ok []
  | v :: vs => do
    let a ← d r v
    let as ← readItems d r vs
    return a :: as

/-- An array. -/
def list (d : Decoder α) : Decoder (List α)
  | r, .array vs => do
    let inner ← r.enter
    readItems d inner vs
  | _, v => .error (.wrongShape v.shape .list)

/-- The meaning of a word. -/
def readWord (choices : List (String × α)) (word : String) : Except Fault α :=
  match choices.lookup word with
  | some a => .ok a
  | none => .error (.unknownWord word (choices.map (·.1)))

/-- One of several words, also as the only key of an object with the value null. A held object may
have an empty object there. -/
def choice (choices : List (String × α)) : Decoder α
  | _, .string ps => do
    let word ← readPieces ps
    readWord choices word
  | r, .object [(k, v)] => do
    let _ ← r.enter
    let word ← readPieces k
    let a ← readWord choices word
    match v with
    | .null => return a
    | .object [] => if r.held then return a else .error (.wrongShape .object .nothing)
    | _ => .error (.wrongShape v.shape .nothing)
  | _, .object _ => .error .notSingle
  | _, v => .error (.wrongShape v.shape .choice)

/-- One of several words and nothing else, except that a held word may be given by its position. -/
def bareChoice (choices : List (String × α)) : Decoder α
  | _, .string ps => do
    let word ← readPieces ps
    readWord choices word
  | ⟨_, true⟩, .number n =>
    match n.toNat? with
    | none => .error (.wrongShape (.number n) .word)
    | some i =>
      match choices[i]? with
      | some (_, a) => .ok a
      | none => .error (.unknownPosition i choices.length)
  | _, v => .error (.wrongShape v.shape .word)

/-- A key of a record and what its value does to the record. -/
structure Field (σ : Type) where
  /-- The key. -/
  key : String
  /-- Whether the key has to be there. -/
  required : Bool
  /-- How its value is read. -/
  read : Decoder (σ → σ)

/-- A key that has to be there. -/
def Field.need (key : String) (d : Decoder α) (set : α → σ → σ) : Field σ :=
  ⟨key, true, d.map set⟩

/-- A key that may be left out. -/
def Field.may (key : String) (d : Decoder α) (set : α → σ → σ) : Field σ :=
  ⟨key, false, d.map set⟩

/-- Read the members of an object in order. Members with unknown keys are skipped; the keys that
were found are returned with the record. -/
def readMembers (fields : List (Field σ)) (r : Reading) :
    List String → σ → List (List Piece × Json) → Except Fault (List String × σ)
  | seen, acc, [] => .ok (seen, acc)
  | seen, acc, (k, v) :: rest => do
    let key ← readPieces k
    match fields.find? (·.key == key) with
    | none => readMembers fields r seen acc rest
    | some f =>
      if seen.contains key then .error (.repeatedKey key)
      else
        let update ← f.read r v
        readMembers fields r (key :: seen) (update acc) rest

/-- Read values in the order of the keys, as long as there are both; also the keys and the values
that are left. -/
def readInOrder (r : Reading) :
    List (Field σ) → σ → List Json → Except Fault (σ × List (Field σ) × List Json)
  | f :: fields, acc, v :: vs => do
    let update ← f.read r v
    readInOrder r fields (update acc) vs
  | fields, acc, vs => .ok (acc, fields, vs)

/-- How many items an array should have had instead of too many. -/
def itemLimit (r : Reading) (size : Nat) : Expected := if r.held then .items size else .fewerItems

/-- A record, read into the value `start`. In an array, keys at the end may be left without a value
if they need not be there. -/
def record (name : String) (start : σ) (fields : List (Field σ)) : Decoder σ
  | r, .object members => do
    let inner ← r.enter
    let (seen, acc) ← readMembers fields inner [] start members
    match fields.find? fun f => f.required && !seen.contains f.key with
    | some f => .error (.missingKey f.key)
    | none => return acc
  | r, .array vs => do
    let inner ← r.enter
    let (acc, absent, extra) ← readInOrder inner fields start vs
    match absent.findIdx? (·.required) with
    | some i => .error (.wrongLength (vs.length + i) (.values name fields.length))
    | none =>
      if extra.isEmpty then return acc
      else .error (.wrongLength vs.length (itemLimit r fields.length))
  | _, v => .error (.wrongShape v.shape (.record name))

/-- What the kind of a tagged value says about its value. -/
inductive Variant (α : Type)
  /-- There is no value, or it is null. -/
  | plain (a : α)
  /-- There is a value to be read. -/
  | holding (d : Decoder α)

/-- Read the value that belongs to a kind of the tagged value `name`. -/
def Variant.read (name kind : String) : Variant α → Decoder α
  | .plain a, _, .null => .ok a
  | .plain _, _, v => .error (.wrongShape v.shape (.plain name kind))
  | .holding d, r, v => d r v

/-- Whether all strings and numbers of a value can be read and at most `n` arrays and objects are
nested in it. -/
def readable : Nat → Json → Bool
  | _, .null => true
  | _, .bool _ => true
  | _, .number n => n.toFinite?.isSome
  | _, .string ps => (decodePieces ps).isSome
  | 0, .array _ => false
  | 0, .object _ => false
  | n + 1, .array vs => vs.all (readable n)
  | n + 1, .object members =>
    members.all fun m => (decodePieces m.1).isSome && readable n m.2

/-- The members of a tagged value that matter, with whether they are the kind. -/
def tagMembers : List (List Piece × Json) → Except Fault (List (Bool × Json))
  | [] => .ok []
  | (k, v) :: rest => do
    let key ← readPieces k
    let found ← tagMembers rest
    return if key = "kind" then (true, v) :: found
      else if key = "value" then (false, v) :: found
      else found

/-- The kinds of a tagged value, each with its word beside it. -/
def namedKinds (variants : List (String × Variant α)) : List (String × String × Variant α) :=
  variants.map fun (word, variant) => (word, word, variant)

/-- A tagged value: an object with a `kind` and perhaps a `value`, or an array of both. -/
def tagged (name : String) (variants : List (String × Variant α)) : Decoder α
  | r, .object members => do
    let inner ← r.enter
    match ← tagMembers members with
    | [(true, kind)] => do
      match ← choice (namedKinds variants) inner kind with
      | (_, .plain a) => return a
      | (_, .holding _) => .error (.missingKey "value")
    | [(true, kind), (false, v)] => do
      let (word, variant) ← choice (namedKinds variants) inner kind
      variant.read name word inner v
    | [(false, v), (true, kind)] => do
      if readable inner.levels v then
        let (word, variant) ← choice (namedKinds variants) inner kind
        variant.read name word { inner with held := true } v
      else .error .notHeld
    | [] => .error (.missingKey "kind")
    | [(false, _)] => .error (.missingKey "kind")
    | (true, _) :: (true, _) :: _ => .error (.repeatedKey "kind")
    | (true, _) :: (false, _) :: (true, _) :: _ => .error (.repeatedKey "kind")
    | (false, _) :: (true, _) :: (true, _) :: _ => .error (.repeatedKey "kind")
    | _ => .error (.repeatedKey "value")
  | r, .array vs => do
    let inner ← r.enter
    match vs with
    | [] => .error (.wrongLength 0 (.tagged name))
    | kind :: rest => do
      let (word, variant) ← bareChoice (namedKinds variants) inner kind
      match rest with
      | [] => .error (.wrongLength 1 (.tagged name))
      | v :: extra => do
        let a ← variant.read name word inner v
        if extra.isEmpty then return a
        else .error (.wrongLength vs.length (itemLimit r 2))
  | _, v => .error (.wrongShape v.shape (.tagged name))

end Decoder

/-- Read a document. What is wrong in the part before a fault of the text comes first. -/
def Document.decode (d : Decoder α) (doc : Document) : Except Fault α :=
  match doc.root with
  | none => .error .malformed
  | some v => do
    let a ← d ⟨Decoder.maxLevels, false⟩ v
    if doc.complete then return a else .error .malformed

end ClassContract
