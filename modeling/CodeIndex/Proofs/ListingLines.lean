import CodeIndex.Proofs.Identifiers
import CodeIndex.Proofs.Lockstep
import CodeIndex.Proofs.LogLines
import Mathlib.Data.List.Nodup
import Mathlib.Data.List.Perm.Basic
import Mathlib.Data.List.TakeWhile

/-!
# How the lines of a listing grow

A listing merges what is recorded: a symbol has one entry however often it comes up, and the places
of a reference, a local variable or a qualifier are collected in one entry. Still nothing is lost
and nothing is mixed up: every place that is recorded gives one more line, with the right names.

`Orderly` says what a listing has to look like for that. The identifiers in it are those of symbols
and files that it can show, and every table has one entry for an identifier.

## What is proved

* `grows_addSymbol`, `grows_changeSymbol` — symbols come and change without any line.
* `grows_refer`, `grows_useLocal`, `grows_placeQualifier` — one more line for one more place.
-/

namespace CodeIndex

/-! ### Tables with one entry for a key -/

section Tables

variable {α β κ : Type} [DecidableEq κ]

/-- Where there is one entry for a key, changing it so that it shows one thing more shows this one
thing more in all. -/
theorem perm_flatMap_change {key : α → κ} {k : κ} {f : α → α} {g : α → List β} {b : β}
    {xs : List α} (distinct : (xs.map key).Nodup) {a : α} (ha : a ∈ xs) (hk : key a = k)
    (hg : g (f a) = g a ++ [b]) :
    ((xs.map fun x => if key x = k then f x else x).flatMap g).Perm (xs.flatMap g ++ [b]) := by
  induction xs with
  | nil => cases ha
  | cons x xs ih =>
    obtain ⟨new, distinct⟩ := List.nodup_cons.mp distinct
    rw [List.map_cons, List.flatMap_cons, List.flatMap_cons, List.append_assoc]
    rcases List.mem_cons.mp ha with rfl | ha
    · -- the entry itself; the others have other keys
      have others : xs.map (fun x => if key x = k then f x else x) = xs := by
        conv_rhs => rw [← List.map_id xs]
        refine List.map_congr_left fun x hx => if_neg fun h => new ?_
        rw [hk, ← h]
        exact List.mem_map_of_mem hx
      rw [if_pos hk, others, hg, List.append_assoc]
      exact List.Perm.append_left _ List.perm_append_comm
    · have other : key x ≠ k := by
        intro h
        rw [h, ← hk] at new
        exact new (List.mem_map_of_mem ha)
      rw [if_neg other]
      exact (ih distinct ha).append_left _

omit [DecidableEq κ] in
/-- The keys stay as they are when an entry is changed. -/
theorem nodup_keys_change {key : α → κ} {p : α → Prop} [DecidablePred p] {f : α → α} {xs : List α}
    (distinct : (xs.map key).Nodup) (own : ∀ x, key (f x) = key x) :
    ((xs.map fun x => if p x then f x else x).map key).Nodup := by
  rw [List.map_map]
  refine (congrArg List.Nodup (List.map_congr_left fun x _ => ?_)).mpr distinct
  simp only [Function.comp]
  split
  · exact own x
  · rfl

omit [DecidableEq κ] in
/-- There is still one entry for a key when one is added whose key is new. -/
theorem nodup_keys_append {key : α → κ} {xs : List α} {x : α} (distinct : (xs.map key).Nodup)
    (new : ∀ y ∈ xs, key y ≠ key x) : ((xs ++ [x]).map key).Nodup := by
  rw [List.map_append]
  refine List.nodup_append.mpr ⟨distinct, List.nodup_singleton _, ?_⟩
  intro k hk k' hk'
  obtain ⟨y, hy, rfl⟩ := List.mem_map.mp hk
  obtain rfl := List.mem_singleton.mp hk'
  exact new y hy

end Tables

namespace Listing

variable {l l' l'' : Listing} {v : Value} {name : String}

/-! ### Names -/

/-- The identifier is that of a symbol or file with the given name. -/
def Names (l : Listing) (v : Value) (name : String) : Prop :=
  ∃ e ∈ l.symbols, v = .number e.id ∧ e.name = name

/-- The key of a symbol or a file with the given name. Stored names begin with a brace, and paths do
not. -/
def Shows (key name : String) : Prop :=
  (∃ q : QualifiedName, key = q.stored ∧ name = q.display) ∨
    (key.toList.head? ≠ some '\x7b' ∧ name = key)

theorem head_stored (q : QualifiedName) : q.stored.toList.head? = some '\x7b' := by
  rw [q.stored_eq]
  obtain ⟨tail, h⟩ := StoredName.toList_written q.asStored
  rw [h]
  rfl

theorem Shows.unique {key name' : String} (h : Shows key name) (h' : Shows key name') :
    name = name' := by
  rcases h with ⟨q, rfl, rfl⟩ | ⟨path, rfl⟩ <;> rcases h' with ⟨q', stored, rfl⟩ | ⟨path', rfl⟩
  · have same : some q = some q' := by
      rw [← q.ofStored?_stored, stored, q'.ofStored?_stored]
    rw [Option.some.inj same]
  · exact absurd (head_stored q) path'
  · exact absurd (stored ▸ head_stored q') path
  · rfl

/-- What a listing looks like that shows things as they were recorded. -/
structure Orderly (l : Listing) : Prop where
  consistent : l.Consistent
  /-- An identifier has one name. -/
  names : ∀ e ∈ l.symbols, ∀ e' ∈ l.symbols, e'.id = e.id → e'.name = e.name
  /-- Everything that was recorded by a key is shown by the name that belongs to it. -/
  keys : ∀ key i, (key, i) ∈ l.keys → ∃ name, Shows key name ∧ l.Names (.number i) name
  /-- References are between things that have names. -/
  ends : ∀ e ∈ l.references, (∃ name, l.Names e.context name) ∧ (∃ name, l.Names e.target name) ∧
    e.kind.Numbered
  references : (l.references.map fun e => some e.id).Nodup
  locals : (l.locals.map fun e => some e.id).Nodup
  /-- Qualifiers have names. -/
  qualified : ∀ e ∈ l.qualifiers, ∃ name, l.Names e.symbol name
  qualifiers : (l.qualifiers.map fun e => e.symbol.plain).Nodup

theorem orderly_empty : Orderly {} where
  consistent := consistent_empty
  names e h := by cases h
  keys key i h := by cases h
  ends e h := by cases h
  references := List.nodup_nil
  locals := List.nodup_nil
  qualified e h := by cases h
  qualifiers := List.nodup_nil

theorem Orderly.nameOf (orderly : l.Orderly) (h : l.Names v name) : l.nameOf v = name := by
  obtain ⟨e, he, rfl, rfl⟩ := h
  cases found : l.symbols.find? fun e' => some e'.id = (Value.number e.id).number? with
  | none => simpa [Value.number?] using List.find?_eq_none.mp found e he
  | some e' =>
    have same : e'.id = e.id := by simpa [Value.number?] using List.find?_some found
    rw [Listing.nameOf, symbol?, found]
    exact orderly.names e he e' (List.mem_of_find?_eq_some found) same

/-! ### Lines -/

theorem under_references (l : Listing) : l.lines.under .references =
    (l.references.flatMap fun e => e.places.map (l.referenceLine e)).filter fun s => !s.isEmpty :=
  rfl

theorem under_qualifiers (l : Listing) : l.lines.under .qualifiers =
    l.qualifiers.flatMap fun e => e.places.map (placeLine (l.nameOf e.symbol)) := rfl

theorem under_localSymbols (l : Listing) : l.lines.under .localSymbols =
    l.locals.flatMap fun e => if e.name.isEmpty then [] else e.places.map (placeLine e.name) := rfl

theorem under_atomicRanges (l : Listing) :
    l.lines.under .atomicRanges = l.atomicRanges.map atomicLine := rfl

theorem under_errors (l : Listing) :
    l.lines.under .errors = l.errors.map fun e => errorLine e.message e.fatal e.range := rfl

/-! ### Growth -/

/-- One line under one heading. -/
def only (h₀ : Heading) (line : String) (h : Heading) : List String := if h₀ = h then [line] else []

theorem perm_append_only {h₀ h : Heading} (other : h₀ ≠ h) (line : String) (lines : List String) :
    lines.Perm (lines ++ only h₀ line h) := by
  rw [only, if_neg other, List.append_nil]

/-- Every reference has a place. -/
def AllPlaced (l : Listing) : Prop := ∀ e ∈ l.references, e.places ≠ []

/-- From an orderly listing to another one that shows some lines more. -/
structure Grows (l l' : Listing) (added : Heading → List String) : Prop where
  orderly : l'.Orderly
  names : ∀ {v name}, l.Names v name → l'.Names v name
  placed : l.AllPlaced → l'.AllPlaced
  lines : ∀ h, (l'.lines.under h).Perm (l.lines.under h ++ added h)

theorem Grows.refl (orderly : l.Orderly) : Grows l l fun _ => [] :=
  ⟨orderly, fun h => h, fun h => h, fun h => by rw [List.append_nil]⟩

/-- First nothing is added, and then something. -/
theorem Grows.trans {added : Heading → List String} (h : Grows l l' fun _ => [])
    (h' : Grows l' l'' added) : Grows l l'' added := by
  refine ⟨h'.orderly, fun hn => h'.names (h.names hn), fun hp => h'.placed (h.placed hp), ?_⟩
  intro heading
  have first := h.lines heading
  rw [List.append_nil] at first
  exact (h'.lines heading).trans (first.append_right _)

/-! ### Symbols -/

/-- What the lines of a listing are made of, but for the names. -/
structure SameTables (l l' : Listing) : Prop where
  references : l'.references = l.references
  locals : l'.locals = l.locals
  qualifiers : l'.qualifiers = l.qualifiers
  atomicRanges : l'.atomicRanges = l.atomicRanges
  errors : l'.errors = l.errors

/-- Symbols that come or change while everything keeps its name do not show. -/
theorem Grows.ofSymbols (orderly : l.Orderly) (consistent : l'.Consistent)
    (same : SameTables l l')
    (names : ∀ e ∈ l'.symbols, ∀ e' ∈ l'.symbols, e'.id = e.id → e'.name = e.name)
    (keys : ∀ key i, (key, i) ∈ l'.keys → ∃ name, Shows key name ∧ l'.Names (.number i) name)
    (kept : ∀ {v name}, l.Names v name → l'.Names v name) : Grows l l' fun _ => [] := by
  have orderly' : l'.Orderly := by
    refine ⟨consistent, names, keys, fun e he => ?_, ?_, ?_, fun e he => ?_, ?_⟩
    · rw [same.references] at he
      obtain ⟨⟨c, hc⟩, ⟨t, ht⟩, numbered⟩ := orderly.ends e he
      exact ⟨⟨c, kept hc⟩, ⟨t, kept ht⟩, numbered⟩
    · rw [same.references]
      exact orderly.references
    · rw [same.locals]
      exact orderly.locals
    · rw [same.qualifiers] at he
      obtain ⟨name, hn⟩ := orderly.qualified e he
      exact ⟨name, kept hn⟩
    · rw [same.qualifiers]
      exact orderly.qualifiers
  have sameName : ∀ {v}, (∃ name, l.Names v name) → l'.nameOf v = l.nameOf v := by
    rintro v ⟨name, hn⟩
    rw [orderly'.nameOf (kept hn), orderly.nameOf hn]
  refine ⟨orderly', kept, fun placed e he => placed e (same.references ▸ he), fun h => ?_⟩
  rw [List.append_nil]
  refine .of_eq ?_
  cases h with
  | references =>
    rw [under_references, under_references, same.references]
    refine congrArg (List.filter _) (List.flatMap_congr fun e he => ?_)
    refine List.map_congr_left fun place _ => ?_
    obtain ⟨hc, ht, -⟩ := orderly.ends e he
    rw [Listing.referenceLine, Listing.referenceLine, sameName hc, sameName ht]
  | qualifiers =>
    rw [under_qualifiers, under_qualifiers, same.qualifiers]
    refine List.flatMap_congr fun e he => ?_
    rw [sameName (orderly.qualified e he)]
  | localSymbols => rw [under_localSymbols, under_localSymbols, same.locals]
  | atomicRanges => rw [under_atomicRanges, under_atomicRanges, same.atomicRanges]
  | errors => rw [under_errors, under_errors, same.errors]

/-- A symbol or file is added if it is new, and has its name. -/
theorem grows_addSymbol (orderly : l.Orderly) {key : String} {entry : Int → SymbolEntry}
    (shows : Shows key name) (own : ∀ i, (entry i).id = i ∧ (entry i).name = name) :
    Grows l (l.addSymbol key entry).2 (fun _ => []) ∧
      (l.addSymbol key entry).2.Names (.number (l.addSymbol key entry).1) name := by
  have consistent := (l.leads_addSymbol key fun i => (own i).1).1.consistent orderly.consistent
  unfold addSymbol at consistent ⊢
  cases found : l.keys.lookup key with
  | some i =>
    obtain ⟨before, after, split, -⟩ := List.lookup_eq_some_iff.mp found
    obtain ⟨name', shows', named⟩ := orderly.keys key i (by simp [split])
    exact ⟨.refl orderly, shows'.unique shows ▸ named⟩
  | none =>
    rw [found] at consistent
    have new : ∀ e ∈ l.symbols, e.id < l.nextId := by
      intro e he
      obtain ⟨text, hkey⟩ := orderly.consistent.symbols e he
      exact orderly.consistent.below (x := .key text) hkey
    obtain ⟨ownId, ownName⟩ := own l.nextId
    have named : Names { (l.addKey key).2 with symbols := l.symbols ++ [entry l.nextId] }
        (.number l.nextId) name := ⟨_, by simp, by rw [ownId], ownName⟩
    have kept : ∀ {v n}, l.Names v n →
        Names { (l.addKey key).2 with symbols := l.symbols ++ [entry l.nextId] } v n :=
      fun ⟨e, he, hv, hn⟩ => ⟨e, List.mem_append_left _ he, hv, hn⟩
    refine ⟨.ofSymbols orderly consistent ⟨rfl, rfl, rfl, rfl, rfl⟩ ?_ ?_ kept, named⟩
    · intro e he e' he' same
      rcases List.mem_append.mp he with he | he <;> rcases List.mem_append.mp he' with he' | he'
      · exact orderly.names e he e' he' same
      · have hid : e'.id = l.nextId := List.mem_singleton.mp he' ▸ ownId
        have := new e he
        omega
      · have hid : e.id = l.nextId := List.mem_singleton.mp he ▸ ownId
        have := new e' he'
        omega
      · rw [List.mem_singleton.mp he, List.mem_singleton.mp he']
    · intro key' i hi
      rcases List.mem_append.mp hi with hi | hi
      · obtain ⟨n, shown, hn⟩ := orderly.keys key' i hi
        exact ⟨n, shown, kept hn⟩
      · cases List.mem_singleton.mp hi
        exact ⟨name, shows, named⟩

theorem grows_addNamed (orderly : l.Orderly) (q : QualifiedName) :
    Grows l (l.addNamed q).2 (fun _ => []) ∧
      (l.addNamed q).2.Names (.number (l.addNamed q).1) q.display :=
  grows_addSymbol orderly (.inl ⟨q, rfl, rfl⟩) fun _ => ⟨rfl, rfl⟩

theorem grows_addFile (orderly : l.Orderly) {path : String}
    (plain : path.toList.head? ≠ some '\x7b') :
    Grows l (l.addFile path).2 (fun _ => []) ∧
      (l.addFile path).2.Names (.number (l.addFile path).1) path :=
  grows_addSymbol orderly (.inr ⟨plain, rfl⟩) fun _ => ⟨rfl, rfl⟩

/-- What is known about a symbol may change, but not its name. -/
theorem grows_changeSymbol (orderly : l.Orderly) (i : Value) {f : SymbolEntry → SymbolEntry}
    (own : ∀ e, (f e).id = e.id ∧ (f e).name = e.name) :
    Grows l (l.changeSymbol i f) fun _ => [] := by
  have changed : ∀ e : SymbolEntry, (if some e.id = i.number? then f e else e).id = e.id ∧
      (if some e.id = i.number? then f e else e).name = e.name := by
    intro e
    split
    · exact own e
    · exact ⟨rfl, rfl⟩
  have kept : ∀ {v n}, l.Names v n → (l.changeSymbol i f).Names v n := by
    rintro v n ⟨e, he, hv, hn⟩
    exact ⟨_, List.mem_map_of_mem he, by rw [(changed e).1, hv], by rw [(changed e).2, hn]⟩
  have consistent := (l.leads_changeSymbol i fun e => (own e).1).consistent orderly.consistent
  refine .ofSymbols orderly consistent ⟨rfl, rfl, rfl, rfl, rfl⟩ ?_ ?_ kept
  · intro e he e' he' same
    obtain ⟨e₀, he₀, rfl⟩ := List.mem_map.mp he
    obtain ⟨e₁, he₁, rfl⟩ := List.mem_map.mp he'
    rw [(changed e₀).1, (changed e₁).1] at same
    rw [(changed e₀).2, (changed e₁).2]
    exact orderly.names e₀ he₀ e₁ he₁ same
  · intro key j hj
    obtain ⟨n, shown, hn⟩ := orderly.keys key j hj
    exact ⟨n, shown, kept hn⟩

/-! ### References -/

/-- A line that is left when blanks are removed from its ends. -/
theorem trim_isEmpty_eq_false {s : String} {c : Char} (hc : c ∈ s.toList)
    (visible : Text.isBlank c = false) : (Text.trim s).isEmpty = false := by
  have kept : ∀ cs : List Char, c ∈ cs → c ∈ cs.dropWhile Text.isBlank := by
    intro cs hc
    rw [← List.takeWhile_append_dropWhile (p := Text.isBlank) (l := cs)] at hc
    rcases List.mem_append.mp hc with hc | hc
    · rw [List.mem_takeWhile_imp hc] at visible
      cases visible
    · exact hc
  have inside : c ∈ (Text.trim s).toList := by
    rw [Text.trim, String.toList_ofList, Text.trimChars, List.mem_reverse]
    exact kept _ (List.mem_reverse.mpr (kept _ hc))
  rw [Bool.eq_false_iff, ne_eq, String.isEmpty_iff]
  rintro empty
  rw [empty] at inside
  cases inside

theorem referenceLine_isEmpty (kind : ReferenceKind) (context target : String) (range : Extent) :
    (CodeIndex.referenceLine kind context target range).isEmpty = false := by
  refine trim_isEmpty_eq_false (c := ':') ?_ (by decide)
  simp [String.toList_append]

/-- The reference that a listing has for the given ends and kind. -/
def HasReference (l : Listing) (i : Int) (context target : Value) (kind : ReferenceKind) : Prop :=
  ∃ e ∈ l.references, e.id = i ∧ e.context = context ∧ e.target = target ∧ e.kind = kind

/-- A reference that is written like one that is to be recorded is the same one. -/
theorem Orderly.eq_of_written (orderly : l.Orderly) {context target : Value} {kind : ReferenceKind}
    {c t : String} (hc : l.Names context c) (ht : l.Names target t) (numbered : kind.Numbered)
    {e : ReferenceEntry} (he : e ∈ l.references)
    (written : e.written = writtenReference context target kind) :
    e.context = context ∧ e.target = target ∧ e.kind = kind := by
  obtain ⟨⟨_, ⟨c', -, hc', -⟩⟩, ⟨_, ⟨t', -, ht', -⟩⟩, ⟨k', hk'⟩⟩ := orderly.ends e he
  obtain ⟨c₀, -, rfl, -⟩ := hc
  obtain ⟨t₀, -, rfl, -⟩ := ht
  obtain ⟨code⟩ := kind
  obtain ⟨k, rfl⟩ : ∃ k, code = .number k := numbered
  have kind : e.kind = ⟨.number k'⟩ := by rw [← hk']
  rw [ReferenceEntry.written, hc', ht', kind] at written
  obtain ⟨hc, ht, hk⟩ := writtenReference_inj written
  rw [hc', ht', kind, hc, ht, hk]
  exact ⟨rfl, rfl, rfl⟩

/-- One more place of a reference is one more line. -/
theorem grows_placeReference (orderly : l.Orderly) {i : Int} {context target : Value}
    {kind : ReferenceKind} {c t : String} (hc : l.Names context c) (ht : l.Names target t)
    (known : l.HasReference i context target kind) (range : Extent) :
    (l.placeReference (.number i) range).Orderly ∧
    ∀ h, ((l.placeReference (.number i) range).lines.under h).Perm
      (l.lines.under h ++ only .references (CodeIndex.referenceLine kind c t range) h) := by
  have consistent := (l.leads_placeReference (.number i) range).consistent orderly.consistent
  refine ⟨⟨consistent, orderly.names, orderly.keys, fun e he => ?_, ?_, orderly.locals,
    orderly.qualified, orderly.qualifiers⟩, fun h => ?_⟩
  · obtain ⟨e₀, he₀, rfl⟩ := List.mem_map.mp he
    have ends := orderly.ends e₀ he₀
    split
    · exact ends
    · exact ends
  · exact nodup_keys_change orderly.references fun _ => rfl
  · cases h with
    | references =>
      obtain ⟨e, he, hid, rfl, rfl, rfl⟩ := known
      rw [under_references, under_references]
      have line : l.referenceLine e (some range) = CodeIndex.referenceLine e.kind c t range := by
        rw [Listing.referenceLine, orderly.nameOf hc, orderly.nameOf ht]
        rfl
      have more : (e.places ++ [some range]).map (l.referenceLine e) =
          e.places.map (l.referenceLine e) ++ [CodeIndex.referenceLine e.kind c t range] := by
        rw [List.map_append, List.map_singleton, line]
      have shown := perm_flatMap_change (g := fun e => e.places.map (l.referenceLine e))
        (f := fun e => { e with places := e.places ++ [some range] }) (k := some i)
        orderly.references he (congrArg some hid) more
      have filtered := shown.filter fun s => !s.isEmpty
      have visible : [CodeIndex.referenceLine e.kind c t range].filter (fun s => !s.isEmpty) =
          [CodeIndex.referenceLine e.kind c t range] := by simp [referenceLine_isEmpty]
      rw [List.filter_append, visible] at filtered
      rw [only, if_pos rfl]
      exact filtered
    | _ => exact perm_append_only (by decide) _ _

/-- A reference is added if it is new. It shows when it has got a place. -/
theorem orderly_addReference (orderly : l.Orderly) {context target : Value} {kind : ReferenceKind}
    {c t : String} (hc : l.Names context c) (ht : l.Names target t) (numbered : kind.Numbered)
    {i : Int} (h : l.addReference context target kind = (i, l')) :
    l'.Orderly ∧ l'.HasReference i context target kind ∧ l'.symbols = l.symbols ∧
      (∀ h, l'.lines.under h = l.lines.under h) ∧
      (l.AllPlaced → ∀ e ∈ l'.references, e.id ≠ i → e.places ≠ []) := by
  have consistent := (l.leads_addReference context target kind).1.consistent orderly.consistent
  rw [h] at consistent
  unfold addReference at h
  cases found : l.references.find? (·.written = writtenReference context target kind) with
  | some e =>
    rw [found] at h
    obtain ⟨rfl, rfl⟩ := Prod.mk.inj h
    have he := List.mem_of_find?_eq_some found
    have same := orderly.eq_of_written hc ht numbered he (by simpa using List.find?_some found)
    exact ⟨orderly, ⟨e, he, rfl, same⟩, rfl, fun _ => rfl, fun placed e he _ => placed e he⟩
  | none =>
    rw [found] at h
    obtain ⟨rfl, rfl⟩ := Prod.mk.inj h
    have new : ∀ e ∈ l.references, e.id ≠ l.nextId := by
      intro e he
      have := orderly.consistent.below (x := .reference e.written) ⟨e, he, rfl, rfl⟩
      omega
    refine ⟨⟨consistent, orderly.names, orderly.keys, fun e he => ?_, ?_, orderly.locals,
      orderly.qualified, orderly.qualifiers⟩, ⟨_, List.mem_append_right _ List.mem_cons_self, rfl,
      rfl, rfl, rfl⟩, rfl, fun h => ?_, fun placed e he other => ?_⟩
    · rcases List.mem_append.mp he with he | he
      · exact orderly.ends e he
      · obtain rfl := List.mem_singleton.mp he
        exact ⟨⟨c, hc⟩, ⟨t, ht⟩, numbered⟩
    · exact nodup_keys_append orderly.references fun e he same => new e he (Option.some.inj same)
    · cases h with
      | references =>
        rw [under_references, under_references, List.flatMap_append]
        exact congrArg (List.filter _) (List.append_nil _)
      | _ => rfl
    · rcases List.mem_append.mp he with he | he
      · exact placed e he
      · exact absurd (congrArg ReferenceEntry.id (List.mem_singleton.mp he)) other

/-- A reference and its place are one more line. -/
theorem grows_refer (orderly : l.Orderly) {context target : Value} {kind : ReferenceKind}
    {c t : String} (hc : l.Names context c) (ht : l.Names target t) (numbered : kind.Numbered)
    {i : Int} (h : l.addReference context target kind = (i, l')) (range : Extent) :
    Grows l (l'.placeReference (.number i) range)
      (only .references (CodeIndex.referenceLine kind c t range)) := by
  obtain ⟨orderly', known, symbols, lines, placed⟩ := orderly_addReference orderly hc ht numbered h
  have names : ∀ {v n}, l.Names v n → l'.Names v n := by
    intro v n hn
    rwa [Names, symbols]
  obtain ⟨orderly'', grown⟩ := grows_placeReference orderly' (names hc) (names ht) known range
  refine ⟨orderly'', names, fun all e he => ?_, fun heading => ?_⟩
  · obtain ⟨e₀, he₀, rfl⟩ := List.mem_map.mp he
    split
    · simp
    · rename_i other
      exact placed all e₀ he₀ fun same => other (congrArg some same)
  · rw [← lines heading]
    exact grown heading

/-! ### Local variables -/

/-- A local variable is added if it is new. It shows when it has got a place. -/
theorem grows_addLocal (orderly : l.Orderly) {i : Int} (h : l.addLocal name = (i, l')) :
    Grows l l' (fun _ => []) ∧ ∃ e ∈ l'.locals, e.id = i ∧ e.name = name := by
  have consistent := (l.leads_addLocal name).1.consistent orderly.consistent
  rw [h] at consistent
  unfold addLocal at h
  cases found : l.locals.find? (·.name = name) with
  | some e =>
    rw [found] at h
    obtain ⟨rfl, rfl⟩ := Prod.mk.inj h
    exact ⟨.refl orderly, e, List.mem_of_find?_eq_some found, rfl,
      by simpa using List.find?_some found⟩
  | none =>
    rw [found] at h
    obtain ⟨rfl, rfl⟩ := Prod.mk.inj h
    have new : ∀ e ∈ l.locals, e.id ≠ l.nextId := by
      intro e he
      have := orderly.consistent.below (x := .localSymbol e.name) ⟨e, he, rfl, rfl⟩
      omega
    refine ⟨⟨⟨consistent, orderly.names, orderly.keys, orderly.ends, orderly.references, ?_,
      orderly.qualified, orderly.qualifiers⟩, fun h => h, fun h => h, fun h => ?_⟩,
      _, List.mem_append_right _ List.mem_cons_self, rfl, rfl⟩
    · exact nodup_keys_append orderly.locals fun e he same => new e he (Option.some.inj same)
    · rw [List.append_nil]
      refine .of_eq ?_
      cases h with
      | localSymbols =>
        rw [under_localSymbols, under_localSymbols, List.flatMap_append]
        simp
      | _ => rfl

/-- One more place of a local variable is one more line. -/
theorem grows_placeLocal (orderly : l.Orderly) {i : Int} (nonempty : name ≠ "")
    (known : ∃ e ∈ l.locals, e.id = i ∧ e.name = name) (range : Extent) :
    Grows l (l.placeLocal (.number i) range) (only .localSymbols (placeLine name range)) := by
  have consistent := (l.leads_placeLocal (.number i) range).consistent orderly.consistent
  refine ⟨⟨consistent, orderly.names, orderly.keys, orderly.ends, orderly.references, ?_,
    orderly.qualified, orderly.qualifiers⟩, fun h => h, fun h => h, fun h => ?_⟩
  · exact nodup_keys_change orderly.locals fun _ => rfl
  · cases h with
    | localSymbols =>
      obtain ⟨e, he, hid, rfl⟩ := known
      rw [under_localSymbols, under_localSymbols]
      refine perm_flatMap_change (f := fun e => { e with places := e.places ++ [range] })
        (k := some i) orderly.locals he (congrArg some hid) ?_
      simp [String.isEmpty_iff, nonempty]
    | _ => exact perm_append_only (by decide) _ _

/-- A local variable and its place are one more line. -/
theorem grows_useLocal (orderly : l.Orderly) (nonempty : name ≠ "") {i : Int}
    (h : l.addLocal name = (i, l')) (range : Extent) :
    Grows l (l'.placeLocal (.number i) range) (only .localSymbols (placeLine name range)) := by
  obtain ⟨added, known⟩ := grows_addLocal orderly h
  exact added.trans (grows_placeLocal added.orderly nonempty known range)

/-! ### Tables without identifiers -/

/-- Nothing changes that has to do with identifiers, but for the qualifiers. -/
theorem Orderly.ofSame (orderly : l.Orderly) (next : l'.nextId = l.nextId) (keys : l'.keys = l.keys)
    (symbols : l'.symbols = l.symbols) (references : l'.references = l.references)
    (locals : l'.locals = l.locals) (qualified : ∀ e ∈ l'.qualifiers, ∃ name, l.Names e.symbol name)
    (qualifiers : (l'.qualifiers.map fun e => e.symbol.plain).Nodup) : l'.Orderly where
  consistent := (leads_quiet next keys symbols references locals).consistent orderly.consistent
  names := by simpa only [symbols] using orderly.names
  keys := by simpa only [keys, Names, symbols] using orderly.keys
  ends := by simpa only [references, Names, symbols] using orderly.ends
  references := by simpa only [references] using orderly.references
  locals := by simpa only [locals] using orderly.locals
  qualified := by simpa only [Names, symbols] using qualified
  qualifiers := qualifiers

theorem grows_atomicRange (orderly : l.Orderly) (range : Extent) :
    Grows l { l with atomicRanges := l.atomicRanges ++ [range] }
      (only .atomicRanges (atomicLine range)) := by
  refine ⟨orderly.ofSame rfl rfl rfl rfl rfl orderly.qualified orderly.qualifiers, fun h => h,
    fun h => h, fun h => ?_⟩
  cases h with
  | atomicRanges =>
    rw [under_atomicRanges, List.map_append]
    rfl
  | _ => exact perm_append_only (by decide) _ _

theorem grows_error (orderly : l.Orderly) (message : String) (fatal : Bool) (range : Extent) :
    Grows l { l with errors := l.errors ++ [⟨message, fatal, range⟩] }
      (only .errors (errorLine message fatal range)) := by
  refine ⟨orderly.ofSame rfl rfl rfl rfl rfl orderly.qualified orderly.qualifiers, fun h => h,
    fun h => h, fun h => ?_⟩
  cases h with
  | errors =>
    rw [under_errors, List.map_append]
    rfl
  | _ => exact perm_append_only (by decide) _ _

/-- One more place of a qualifier is one more line. -/
theorem grows_placeQualifier (orderly : l.Orderly) (named : l.Names v name) (range : Extent) :
    Grows l (l.placeQualifier v range) (only .qualifiers (placeLine name range)) := by
  by_cases known : l.qualifiers.any (·.symbol.plain = v.plain) = true
  · obtain ⟨e, he, same⟩ := List.any_eq_true.mp known
    have plain := of_decide_eq_true same
    -- identifiers of symbols are numbers, so the entry is that of the same symbol
    have symbol : e.symbol = v := by
      obtain ⟨_, _, -, number, -⟩ := orderly.qualified e he
      obtain ⟨_, -, rfl, -⟩ := named
      rw [number] at plain ⊢
      exact plain
    have placed : l.placeQualifier v range = { l with qualifiers := l.qualifiers.map fun e =>
        if e.symbol.plain = v.plain then { e with places := e.places ++ [range] } else e } := by
      rw [placeQualifier, if_pos known]
    rw [placed]
    refine ⟨orderly.ofSame rfl rfl rfl rfl rfl (fun e he => ?_) ?_, fun h => h, fun h => h,
      fun h => ?_⟩
    · obtain ⟨e₀, he₀, rfl⟩ := List.mem_map.mp he
      have named := orderly.qualified e₀ he₀
      split
      · exact named
      · exact named
    · exact nodup_keys_change orderly.qualifiers fun _ => rfl
    · cases h with
      | qualifiers =>
        rw [under_qualifiers, under_qualifiers]
        refine perm_flatMap_change (f := fun e => { e with places := e.places ++ [range] })
          (k := v.plain) orderly.qualifiers he plain ?_
        rw [List.map_append, symbol]
        exact congrArg (fun n => _ ++ [placeLine n range]) (orderly.nameOf named)
      | _ => exact perm_append_only (by decide) _ _
  · have placed : l.placeQualifier v range =
        { l with qualifiers := l.qualifiers ++ [⟨v, [range]⟩] } := by
      rw [placeQualifier, if_neg known]
    rw [placed]
    refine ⟨orderly.ofSame rfl rfl rfl rfl rfl (fun e he => ?_) ?_, fun h => h, fun h => h,
      fun h => ?_⟩
    · rcases List.mem_append.mp he with he | he
      · exact orderly.qualified e he
      · obtain rfl := List.mem_singleton.mp he
        exact ⟨name, named⟩
    · refine nodup_keys_append orderly.qualifiers fun e he same => ?_
      exact known (List.any_eq_true.mpr ⟨e, he, decide_eq_true same⟩)
    · cases h with
      | qualifiers =>
        rw [under_qualifiers, under_qualifiers, List.flatMap_append, only, if_pos rfl]
        refine .of_eq (congrArg (_ ++ ·) ?_)
        exact congrArg (fun n => [placeLine n range]) (orderly.nameOf named)
      | _ => exact perm_append_only (by decide) _ _

/-! ### Reading -/

/-- Reading a listing in which every reference has a place shows its lines. -/
theorem read_of_allPlaced (placed : l.AllPlaced) : l.read.1 = l.lines := by
  have settled : l.settle = l := by
    have same : l.references.map (fun e =>
        if e.places.isEmpty then { e with places := [none] } else e) = l.references := by
      conv_rhs => rw [← List.map_id l.references]
      refine List.map_congr_left fun e he => ?_
      simp [placed e he]
    rw [settle, same]
  rw [read, settled]

end Listing

end CodeIndex
