import ClassContract.Proofs.Documents

/-!
# Decoders and what is written for them

The first part says what a decoder must have read when it succeeds, whichever of the accepted
spellings the text used. Every array and object costs one level. A list is read item by item, a
tagged value comes from one of its variants, and a record is `Filled` from its start by its fields,
the required ones among them.

The second part is about values in the one spelling that is written. A record with all of its keys
is read like the array of its values, `record_written`, and a tagged value like the value that
belongs to its kind.
-/

namespace ClassContract

namespace Decoder

/-- Two readings in a row succeed if both do. -/
theorem bind_eq_ok {x : Except Fault α} {f : α → Except Fault β} {b : β} :
    (x >>= f) = .ok b ↔ ∃ a, x = .ok a ∧ f a = .ok b := by
  cases x <;> simp [bind, Except.bind]

/-- A reading whose result is changed succeeds if it does. -/
theorem map_eq_ok {x : Except Fault α} {f : α → β} {b : β} :
    x.map f = .ok b ↔ ∃ a, x = .ok a ∧ f a = b := by
  cases x <;> simp [Except.map]

/-- Opening an array or object takes one level. -/
theorem levels_of_enter {r inner : Reading} (h : r.enter = .ok inner) :
    inner.levels + 1 = r.levels := by
  unfold Reading.enter at h
  split at h
  · cases h
  · next hlevels =>
    cases h
    exact hlevels.symm

/-- A level that is there can be taken. -/
theorem enter_succ (n : Nat) (held : Bool) : Reading.enter ⟨n + 1, held⟩ = .ok ⟨n, held⟩ := rfl

/-- Every item of a list was read from some value. -/
theorem exists_of_readItems {d : Decoder α} {r : Reading} {vs : List Json} {as : List α}
    (h : readItems d r vs = .ok as) : ∀ a ∈ as, ∃ v, d r v = .ok a := by
  induction vs generalizing as with
  | nil =>
    cases h
    exact fun a ha => absurd ha List.not_mem_nil
  | cons v vs ih =>
    rw [readItems] at h
    obtain ⟨a, ha, h⟩ := bind_eq_ok.mp h
    obtain ⟨as, has, h⟩ := bind_eq_ok.mp h
    cases h
    exact List.forall_mem_cons.mpr ⟨⟨v, ha⟩, ih has⟩

/-- The items of a list were read one level further in. -/
theorem exists_of_list {d : Decoder α} {r : Reading} {v : Json} {as : List α}
    (h : d.list r v = .ok as) :
    ∃ inner : Reading, inner.levels + 1 = r.levels ∧ ∀ a ∈ as, ∃ w, d inner w = .ok a := by
  cases v with
  | array vs =>
    obtain ⟨inner, henter, h⟩ := bind_eq_ok.mp h
    exact ⟨inner, levels_of_enter henter, exists_of_readItems h⟩
  | null | bool | number | string | object => cases h

/-- A word that was read is one of the choices. -/
theorem mem_of_readWord {choices : List (String × α)} {word : String} {a : α}
    (h : readWord choices word = .ok a) : (word, a) ∈ choices := by
  unfold readWord at h
  split at h
  · next hlookup =>
    cases h
    obtain ⟨before, after, heq, _⟩ := List.lookup_eq_some_iff.mp hlookup
    rw [heq]
    exact List.mem_append_right _ List.mem_cons_self
  · cases h

/-- What was chosen is one of the choices. -/
theorem mem_of_choice {choices : List (String × α)} {r : Reading} {v : Json} {a : α}
    (h : choice choices r v = .ok a) : ∃ word, (word, a) ∈ choices := by
  unfold choice at h
  split at h
  · obtain ⟨word, _, h⟩ := bind_eq_ok.mp h
    exact ⟨word, mem_of_readWord h⟩
  · obtain ⟨inner, _, h⟩ := bind_eq_ok.mp h
    obtain ⟨word, _, h⟩ := bind_eq_ok.mp h
    obtain ⟨b, hb, h⟩ := bind_eq_ok.mp h
    have hab : b = a := by
      split at h
      · cases h
        rfl
      · split at h
        · cases h
          rfl
        · cases h
      · cases h
    exact ⟨word, hab ▸ mem_of_readWord hb⟩
  · cases h
  · cases h

/-- What was chosen without a level is one of the choices. -/
theorem mem_of_bareChoice {choices : List (String × α)} {r : Reading} {v : Json} {a : α}
    (h : bareChoice choices r v = .ok a) : ∃ word, (word, a) ∈ choices := by
  unfold bareChoice at h
  split at h
  · obtain ⟨word, _, h⟩ := bind_eq_ok.mp h
    exact ⟨word, mem_of_readWord h⟩
  · split at h
    · cases h
    · split at h
      · next word b hword =>
        cases h
        exact ⟨word, List.mem_of_getElem? hword⟩
      · cases h
  · cases h

/-- Kinds are listed with the variants they name. -/
theorem mem_of_mem_namedKinds {variants : List (String × Variant α)} {w word : String}
    {variant : Variant α} (h : (w, word, variant) ∈ namedKinds variants) :
    (word, variant) ∈ variants := by
  obtain ⟨p, hp, heq⟩ := List.mem_map.mp h
  cases heq
  exact hp

/-- A tagged value was read one level further in by one of its variants. -/
theorem exists_of_tagged {name : String} {variants : List (String × Variant α)} {r : Reading}
    {v : Json} {a : α} (h : tagged name variants r v = .ok a) :
    ∃ inner : Reading, inner.levels + 1 = r.levels ∧
      ∃ word variant w, (word, variant) ∈ variants ∧ variant.read name word inner w = .ok a := by
  cases v with
  | object members =>
    obtain ⟨inner, henter, h⟩ := bind_eq_ok.mp h
    obtain ⟨found, _, h⟩ := bind_eq_ok.mp h
    have hlevels := levels_of_enter henter
    split at h
    · obtain ⟨⟨word, variant⟩, hkind, h⟩ := bind_eq_ok.mp h
      obtain ⟨_, hmem⟩ := mem_of_choice hkind
      cases variant with
      | plain b =>
        cases h
        exact ⟨inner, hlevels, word, _, .null, mem_of_mem_namedKinds hmem, rfl⟩
      | holding d => cases h
    · next w _ =>
      obtain ⟨⟨word, variant⟩, hkind, h⟩ := bind_eq_ok.mp h
      obtain ⟨_, hmem⟩ := mem_of_choice hkind
      exact ⟨inner, hlevels, word, variant, w, mem_of_mem_namedKinds hmem, h⟩
    · next w kind _ =>
      split at h
      · obtain ⟨⟨word, variant⟩, hkind, h⟩ := bind_eq_ok.mp h
        obtain ⟨_, hmem⟩ := mem_of_choice hkind
        exact ⟨{ inner with held := true }, hlevels, word, variant, w,
          mem_of_mem_namedKinds hmem, h⟩
      · cases h
    all_goals cases h
  | array vs =>
    obtain ⟨inner, henter, h⟩ := bind_eq_ok.mp h
    have hlevels := levels_of_enter henter
    cases vs with
    | nil => cases h
    | cons kind rest =>
      obtain ⟨⟨word, variant⟩, hkind, h⟩ := bind_eq_ok.mp h
      obtain ⟨_, hmem⟩ := mem_of_bareChoice hkind
      cases rest with
      | nil => cases h
      | cons w extra =>
        obtain ⟨b, hb, h⟩ := bind_eq_ok.mp h
        split at h
        · cases h
          exact ⟨inner, hlevels, word, variant, w, mem_of_mem_namedKinds hmem, hb⟩
        · cases h
  | null | bool | number | string => cases h

/-- A record made from its start by fields that were read, with the keys of these fields. -/
inductive Filled (fields : List (Field σ)) (r : Reading) (start : σ) : List String → σ → Prop
  | start : Filled fields r start [] start
  | field {f : Field σ} {v : Json} {update : σ → σ} {seen : List String} {acc : σ} :
    f ∈ fields → f.read r v = .ok update → Filled fields r start seen acc →
    Filled fields r start (f.key :: seen) (update acc)

/-- Reading the members of an object one by one fills a record. -/
theorem filled_of_readMembers {fields : List (Field σ)} {r : Reading} {start : σ}
    {members : List (List Piece × Json)} {seen seen' : List String} {acc acc' : σ}
    (h : readMembers fields r seen acc members = .ok (seen', acc'))
    (hacc : Filled fields r start seen acc) : Filled fields r start seen' acc' := by
  induction members generalizing seen acc with
  | nil =>
    cases h
    exact hacc
  | cons m members ih =>
    obtain ⟨k, v⟩ := m
    rw [readMembers] at h
    obtain ⟨key, _, h⟩ := bind_eq_ok.mp h
    split at h
    · exact ih h hacc
    · next f hf =>
      have hfound := List.find?_some hf
      have hkey : f.key = key := beq_iff_eq.mp hfound
      split at h
      · cases h
      · obtain ⟨update, hupdate, h⟩ := bind_eq_ok.mp h
        have hstep := Filled.field (List.mem_of_find?_eq_some hf) hupdate hacc
        rw [hkey] at hstep
        exact ih h hstep

/-- Reading in order uses the fields in front of those that are left. -/
theorem filled_of_readInOrder {fields todo : List (Field σ)} {r : Reading} {start : σ}
    {vs extra : List Json} {seen : List String} {acc acc' : σ} {absent : List (Field σ)}
    (h : readInOrder r todo acc vs = .ok (acc', absent, extra))
    (hsub : ∀ f ∈ todo, f ∈ fields) (hacc : Filled fields r start seen acc) :
    ∃ seen', Filled fields r start seen' acc' ∧ seen ⊆ seen' ∧
      ∀ f ∈ todo, f.key ∈ seen' ∨ f ∈ absent := by
  induction todo generalizing vs seen acc with
  | nil =>
    rw [readInOrder.eq_2 _ _ _ _ (by simp)] at h
    cases h
    exact ⟨seen, hacc, List.Subset.refl _, fun f hf => .inr hf⟩
  | cons f todo ih =>
    cases vs with
    | nil =>
      rw [readInOrder.eq_2 _ _ _ _ (by simp)] at h
      cases h
      exact ⟨seen, hacc, List.Subset.refl _, fun f hf => .inr hf⟩
    | cons v vs =>
      rw [List.forall_mem_cons] at hsub
      rw [readInOrder] at h
      obtain ⟨update, hupdate, h⟩ := bind_eq_ok.mp h
      obtain ⟨seen', hfilled, hseen, hrest⟩ := ih h hsub.2 (.field hsub.1 hupdate hacc)
      refine ⟨seen', hfilled, fun k hk => hseen (List.mem_cons_of_mem _ hk), ?_⟩
      exact List.forall_mem_cons.mpr ⟨.inl (hseen List.mem_cons_self), hrest⟩

/-- A record was filled by its fields one level further in, the required ones among them. -/
theorem exists_of_record {name : String} {start : σ} {fields : List (Field σ)} {r : Reading}
    {v : Json} {a : σ} (h : record name start fields r v = .ok a) :
    ∃ inner : Reading, inner.levels + 1 = r.levels ∧
      ∃ seen, Filled fields inner start seen a ∧
        ∀ f ∈ fields, f.required = true → f.key ∈ seen := by
  cases v with
  | object members =>
    obtain ⟨inner, henter, h⟩ := bind_eq_ok.mp h
    obtain ⟨⟨seen, acc⟩, hmembers, h⟩ := bind_eq_ok.mp h
    dsimp only at h
    split at h
    · cases h
    · next hnone =>
      cases h
      refine ⟨inner, levels_of_enter henter, seen, filled_of_readMembers hmembers .start, ?_⟩
      intro f hf hrequired
      have hseen := List.find?_eq_none.mp hnone f hf
      simpa [hrequired] using hseen
  | array vs =>
    obtain ⟨inner, henter, h⟩ := bind_eq_ok.mp h
    obtain ⟨⟨acc, absent, extra⟩, horder, h⟩ := bind_eq_ok.mp h
    obtain ⟨seen, hfilled, _, hkeys⟩ := filled_of_readInOrder horder (fun f hf => hf) .start
    dsimp only at h
    split at h
    · cases h
    · next hnone =>
      split at h
      · cases h
        refine ⟨inner, levels_of_enter henter, seen, hfilled, ?_⟩
        intro f hf hrequired
        rcases hkeys f hf with hkey | habsent
        · exact hkey
        · have hfree := List.findIdx?_eq_none_iff.mp hnone f habsent
          rw [hrequired] at hfree
          cases hfree
      · cases h
  | null | bool | number | string => cases h

/-- A field that puts what is read into a part of the record. -/
def Field.Sets (f : Field σ) (d : Decoder β) (part : σ → β) : Prop :=
  ∀ r v update, f.read r v = .ok update → ∀ s, d r v = .ok (part (update s))

/-- A field that leaves a part of the record as it is. -/
def Field.Keeps (f : Field σ) (part : σ → β) : Prop :=
  ∀ r v update, f.read r v = .ok update → ∀ s, part (update s) = part s

/-- A field that is written into a part sets that part. -/
theorem sets_map {key : String} {required : Bool} {d : Decoder β} {set : β → σ → σ} {part : σ → β}
    (h : ∀ b s, part (set b s) = b) : Field.Sets ⟨key, required, d.map set⟩ d part := by
  intro r v update hread s
  obtain ⟨b, hb, rfl⟩ := map_eq_ok.mp hread
  rw [h, hb]

/-- A field that is written elsewhere keeps a part. -/
theorem keeps_map {key : String} {required : Bool} {d : Decoder α} {set : α → σ → σ}
    {part : σ → β} (h : ∀ a s, part (set a s) = part s) :
    Field.Keeps ⟨key, required, d.map set⟩ part := by
  intro r v update hread s
  obtain ⟨a, _, rfl⟩ := map_eq_ok.mp hread
  exact h a s

/-- A part of a record that one key sets and all others keep was read, unless the key was not there
and the record was left as it started. -/
theorem Filled.part {fields : List (Field σ)} {r : Reading} {start acc : σ} {seen : List String}
    (h : Filled fields r start seen acc) (key : String) (d : Decoder β) (part : σ → β)
    (hfields : ∀ f ∈ fields, f.Sets d part ∨ f.key ≠ key ∧ f.Keeps part) :
    (∃ v, d r v = .ok (part acc)) ∨ key ∉ seen ∧ part acc = part start := by
  induction h with
  | start => exact .inr ⟨List.not_mem_nil, rfl⟩
  | @field f v update seen acc hmem hread _ ih =>
    rcases hfields f hmem with hsets | ⟨hkey, hkeeps⟩
    · exact .inl ⟨v, hsets r v update hread acc⟩
    · rw [hkeeps r v update hread acc]
      refine ih.imp_right fun ⟨hseen, hstart⟩ => ⟨?_, hstart⟩
      exact fun hcons => (List.mem_cons.mp hcons).elim (fun heq => hkey heq.symm) hseen

/-- The pieces of a string are read as the string. -/
@[simp] theorem readPieces_encodePieces (s : String) : readPieces (encodePieces s) = .ok s := by
  rw [readPieces, decodePieces_encodePieces]
  exact congrArg Except.ok String.ofList_toList

/-- A string comes back. -/
@[simp] theorem text_text (r : Reading) (s : String) : text r (.text s) = .ok s :=
  readPieces_encodePieces s

/-- A truth value comes back. -/
@[simp] theorem bool_bool (r : Reading) (b : Bool) : bool r (.bool b) = .ok b := rfl

/-- A double is read from what is written for it exactly if it is finite and its numeral denotes
it. -/
theorem double_eq_ok_iff {r : Reading} {x : Double} :
    double r (.double x) = .ok x ↔ x.ReadsBack := by
  cases x with
  | finite x =>
    unfold Double.ReadsBack FiniteDouble.ReadsBack Json.double double
    cases hread : x.numeral.toFinite? <;> simp [hread]
  | infinite negative => simp [Double.ReadsBack, Json.double, double]

/-- A choice that is written as a word is read by the word. -/
@[simp] theorem choice_text (choices : List (String × α)) (r : Reading) (word : String) :
    choice choices r (.text word) = readWord choices word := by
  show (readPieces (encodePieces word) >>= readWord choices) = _
  rw [readPieces_encodePieces]
  rfl

/-- Items come back exactly if each of them does. -/
theorem readItems_written_iff {d : Decoder α} {r : Reading} {write : α → Json} {as : List α} :
    readItems d r (as.map write) = .ok as ↔ ∀ a ∈ as, d r (write a) = .ok a := by
  induction as with
  | nil => simp [readItems]
  | cons a as ih =>
    rw [List.map_cons, readItems, List.forall_mem_cons, ← ih]
    constructor
    · intro h
      obtain ⟨b, hb, h⟩ := bind_eq_ok.mp h
      obtain ⟨bs, hbs, h⟩ := bind_eq_ok.mp h
      cases h
      exact ⟨hb, hbs⟩
    · rintro ⟨ha, has⟩
      rw [ha, has]
      rfl

/-- A list is read back exactly if each of its items is. -/
theorem list_written_iff {d : Decoder α} {n : Nat} {held : Bool} {write : α → Json}
    {as : List α} :
    d.list ⟨n + 1, held⟩ (.array (as.map write)) = .ok as ↔
      ∀ a ∈ as, d ⟨n, held⟩ (write a) = .ok a :=
  readItems_written_iff

/-- A kind without a value comes back as what it stands for. -/
theorem tagged_kind {name word : String} {variants : List (String × Variant α)} {a : α}
    (h : (namedKinds variants).lookup word = some (word, .plain a)) (n : Nat) (held : Bool) :
    tagged name variants ⟨n + 1, held⟩ (.record [("kind", .text word)]) = .ok a := by
  simp [tagged, Json.record, tagMembers, enter_succ, readWord, h, bind, Except.bind, pure,
    Except.pure]

/-- A kind with its value is read like the value. -/
theorem tagged_kind_value {name word : String} {variants : List (String × Variant α)}
    {d : Decoder α} (h : (namedKinds variants).lookup word = some (word, .holding d)) (n : Nat)
    (held : Bool) (v : Json) :
    tagged name variants ⟨n + 1, held⟩ (.record [("kind", .text word), ("value", v)]) =
      d ⟨n, held⟩ v := by
  simp [tagged, Json.record, tagMembers, enter_succ, readWord, h, bind, Except.bind, pure,
    Except.pure, Variant.read]

/-- Where keys are different, a field is found by its key. -/
theorem find?_key {fields : List (Field σ)} (hkeys : (fields.map Field.key).Nodup) {f : Field σ}
    (hf : f ∈ fields) : fields.find? (·.key == f.key) = some f := by
  obtain ⟨before, after, rfl⟩ := List.append_of_mem hf
  refine List.find?_eq_some_iff_append.mpr ⟨beq_self_eq_true _, before, after, rfl, ?_⟩
  intro g hg
  rw [List.map_append, List.nodup_append] at hkeys
  have hne : g.key ≠ f.key := hkeys.2.2 g.key (List.mem_map_of_mem hg) f.key List.mem_cons_self
  simp [hne]

/-- The members of an object that has some of the keys of a record, each once. -/
theorem readMembers_chosen {fields : List (Field σ)} (hkeys : (fields.map Field.key).Nodup)
    (r : Reading) {chosen : List (Field σ × Json)} (hchosen : ∀ p ∈ chosen, p.1 ∈ fields)
    {seen : List String} (hfresh : (chosen.map (·.1.key) ++ seen).Nodup) (acc : σ) :
    readMembers fields r seen acc (chosen.map fun p => (encodePieces p.1.key, p.2)) =
      (readInOrder r (chosen.map Prod.fst) acc (chosen.map Prod.snd)).map
        fun x => ((chosen.map (·.1.key)).reverse ++ seen, x.1) := by
  induction chosen generalizing seen acc with
  | nil => rfl
  | cons p chosen ih =>
    obtain ⟨f, v⟩ := p
    rw [List.forall_mem_cons] at hchosen
    rw [List.map_cons, List.cons_append, List.nodup_cons] at hfresh
    have hseen : seen.contains f.key = false := by
      simpa using fun h => hfresh.1 (List.mem_append_right _ h)
    have hrest : (chosen.map (·.1.key) ++ f.key :: seen).Nodup :=
      List.perm_middle.nodup_iff.mpr (List.nodup_cons.mpr hfresh)
    simp only [List.map_cons, readMembers, readInOrder, readPieces_encodePieces,
      find?_key hkeys hchosen.1, hseen, bind, Except.bind]
    cases f.read r v with
    | error e => simp [Except.map]
    | ok update => simpa using ih hchosen.2 hrest (update acc)

/-- A record with some of its keys, the required ones among them, is read like the array of the
values of these keys. -/
theorem record_chosen {name : String} {start : σ} {fields : List (Field σ)}
    {members : List (String × Json)} {n : Nat} {held : Bool} (chosen : List (Field σ))
    (vs : List Json) (hmembers : members = (chosen.map Field.key).zip vs)
    (hkeys : (fields.map Field.key).Nodup) (hlength : chosen.length = vs.length)
    (hchosen : chosen.Sublist fields) (hrequired : ∀ f ∈ fields, f.required = true → f ∈ chosen) :
    record name start fields ⟨n + 1, held⟩ (.record members) =
      (readInOrder ⟨n, held⟩ chosen start vs).map (·.1) := by
  have hfst : (chosen.zip vs).map Prod.fst = chosen := List.map_fst_zip (Nat.le_of_eq hlength)
  have hsnd : (chosen.zip vs).map Prod.snd = vs := List.map_snd_zip (Nat.le_of_eq hlength.symm)
  have hzipped : (chosen.zip vs).map (fun p : Field σ × Json => p.1.key) =
      chosen.map Field.key := by
    have hmap := congrArg (List.map Field.key) hfst
    rwa [List.map_map] at hmap
  have hfresh : ((chosen.zip vs).map (fun p : Field σ × Json => p.1.key) ++ []).Nodup := by
    rw [hzipped, List.append_nil]
    exact (hchosen.map Field.key).nodup hkeys
  have hread := readMembers_chosen hkeys ⟨n, held⟩
    (fun p hp => hchosen.subset (List.of_mem_zip hp).1) hfresh start
  rw [hzipped, hfst, hsnd, List.append_nil] at hread
  have hfound : fields.find? (fun f => f.required &&
      !(chosen.map Field.key).reverse.contains f.key) = none := by
    refine List.find?_eq_none.mpr fun f hf => ?_
    cases hneed : f.required with
    | false => simp
    | true =>
      have hkey : f.key ∈ chosen.map Field.key := List.mem_map_of_mem (hrequired f hf hneed)
      simp [hkey]
  have hwritten : members = (chosen.zip vs).map fun p => (p.1.key, p.2) := by
    rw [hmembers, List.zip_map_left]
    rfl
  simp only [record, Json.record, hwritten, List.map_map, Function.comp_def, enter_succ, hread, bind,
    Except.bind]
  cases readInOrder ⟨n, held⟩ chosen start vs with
  | error e => rfl
  | ok x => simp only [Except.map, hfound, pure, Except.pure]

/-- A record with all of its keys is read like the array of its values. -/
theorem record_written {name : String} {start : σ} {fields : List (Field σ)}
    {members : List (String × Json)} {n : Nat} {held : Bool} (vs : List Json)
    (hmembers : members = (fields.map Field.key).zip vs)
    (hkeys : (fields.map Field.key).Nodup) (hlength : fields.length = vs.length) :
    record name start fields ⟨n + 1, held⟩ (.record members) =
      (readInOrder ⟨n, held⟩ fields start vs).map (·.1) :=
  record_chosen fields vs hmembers hkeys hlength (List.Sublist.refl _) fun _ hf _ => hf

/-- A function that loses nothing is undone after reading. -/
theorem map_written_iff {d : Decoder α} {f : α → β} (hf : ∀ a b, f a = f b → a = b)
    {r : Reading} {v : Json} {a : α} : d.map f r v = .ok (f a) ↔ d r v = .ok a := by
  constructor
  · intro h
    obtain ⟨b, hb, heq⟩ := map_eq_ok.mp h
    rw [hb, hf b a heq]
  · exact fun h => map_eq_ok.mpr ⟨a, h, rfl⟩

/-- Where `levels` arrays and objects may be opened, a value comes back from what is written for it
exactly if each of its numbers does. -/
def Returns (d : Decoder α) (write : α → Json) (numbers : α → List Double) (levels : Nat) (a : α) :
    Prop :=
  ∀ r : Reading, levels ≤ r.levels → (d r (write a) = .ok a ↔ ∀ x ∈ numbers a, x.ReadsBack)

section Returns

variable {d : Decoder α} {write : α → Json} {numbers : α → List Double} {levels : Nat}

/-- What comes back within some levels comes back within more. -/
theorem Returns.mono {a : α} (h : Returns d write numbers levels a) {more : Nat}
    (hle : levels ≤ more) : Returns d write numbers more a :=
  fun r hr => h r (Nat.le_trans hle hr)

/-- Where at least one level is needed, one step of the reader can be taken. -/
theorem returns_succ {a : α}
    (h : ∀ n held, levels ≤ n →
      (d ⟨n + 1, held⟩ (write a) = .ok a ↔ ∀ x ∈ numbers a, x.ReadsBack)) :
    Returns d write numbers (levels + 1) a := by
  rintro ⟨n, held⟩ hn
  cases n with
  | zero => exact absurd hn (Nat.not_succ_le_zero _)
  | succ n => exact h n held (Nat.le_of_succ_le_succ hn)

/-- Writing a list. -/
def writeList (write : α → Json) (as : List α) : Json := .array (as.map write)

/-- A list comes back with one level more than its items need. -/
theorem Returns.list {as : List α} (h : ∀ a ∈ as, Returns d write numbers levels a) :
    Returns d.list (writeList write) (List.flatMap numbers) (levels + 1) as := by
  refine returns_succ fun n held hn => ?_
  rw [List.forall_mem_flatMap, writeList, list_written_iff]
  have hitem : ∀ a ∈ as, (d ⟨n, held⟩ (write a) = .ok a ↔ ∀ x ∈ numbers a, x.ReadsBack) :=
    fun a ha => h a ha ⟨n, held⟩ hn
  exact ⟨fun hread a ha => (hitem a ha).mp (hread a ha),
    fun hnumbers a ha => (hitem a ha).mpr (hnumbers a ha)⟩

/-- A list that was read, or that is empty because it was left out, comes back where it could have
been read. -/
theorem returns_list {least : Nat}
    (hd : ∀ r v a, d r v = .ok a → least ≤ r.levels → Returns d write numbers r.levels a)
    {r : Reading} (hr : least + 1 ≤ r.levels) {as : List α}
    (h : as = [] ∨ ∃ v, d.list r v = .ok as) :
    Returns d.list (writeList write) (List.flatMap numbers) r.levels as := by
  rcases h with rfl | ⟨v, hv⟩
  · have hempty : Returns d.list (writeList write) (List.flatMap numbers) 1 [] :=
      Returns.list fun a ha => absurd ha List.not_mem_nil
    exact hempty.mono (by omega)
  · obtain ⟨inner, hinner, hitems⟩ := exists_of_list hv
    have hlist : Returns d.list (writeList write) (List.flatMap numbers) (inner.levels + 1) as := by
      refine Returns.list fun a ha => ?_
      obtain ⟨w, hw⟩ := hitems a ha
      exact hd inner w a hw (by omega)
    exact hlist.mono (Nat.le_of_eq hinner)

end Returns

end Decoder

end ClassContract
