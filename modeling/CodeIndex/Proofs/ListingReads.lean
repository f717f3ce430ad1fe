import CodeIndex.Proofs.ListingHistory

/-!
# What reading a listing leaves behind

Reading a listing shows its lines and leaves a trace: a reference that has no place is shown once
without one, and this showing stays when places are recorded for it later. So a listing that was
read in between differs from one that was not, but only in such references.

The difference can be said at any time. `marked` puts the showing without a place in front of the
places of the given references. Recording something in a marked listing is recording it and marking
the result, and reading a listing is marking the references that have no place at that time.

## What is proved

* `Listing.record_marked`, `Listing.settle_marked` — one operation on a marked listing.
* `Listing.performAll_eq_marked` — all operations, with and without the readings among them.
* `reading_shows_early_references` — the lines after operations with readings among them.
* `early_reading_shows_twice` — a reading in between may show a reference once more.
-/

namespace CodeIndex

namespace Listing

variable {l : Listing} {early : List Int}

/-- The operation records something. -/
def Operation.isRecord : Operation → Bool
  | .record _ => true
  | .read => false

/-- The operations without the readings. -/
def unread (ops : List Operation) : List Operation := ops.filter Operation.isRecord

/-- The references that have no place. -/
def unplaced (l : Listing) : List Int := (l.references.filter (·.places.isEmpty)).map (·.id)

/-- The references that have no place at a time when the listing is read, where the listing is `l`
before the operations. -/
def readEarly (l : Listing) : List Operation → List Int
  | [] => []
  | .read :: ops => l.unplaced ++ l.readEarly ops
  | .record r :: ops => readEarly ((Operation.record r).perform l).2 ops

/-- The reference with a showing without a place in front of its places, if it is one of the
given. -/
def mark (early : List Int) (e : ReferenceEntry) : ReferenceEntry :=
  if e.id ∈ early then { e with places := none :: e.places } else e

/-- The listing in which the given references are shown without a place first. -/
def marked (early : List Int) (l : Listing) : Listing :=
  { l with references := l.references.map (mark early) }

@[simp] theorem id_mark (e : ReferenceEntry) : (mark early e).id = e.id := by
  unfold mark
  split <;> rfl

@[simp] theorem written_mark (e : ReferenceEntry) : (mark early e).written = e.written := by
  unfold mark
  split <;> rfl

theorem marked_nil (l : Listing) : l.marked [] = l := by
  have same : mark [] = id := by
    funext e
    exact if_neg List.not_mem_nil
  rw [marked, same, List.map_id]

/-! ### Recording -/

theorem addReference_marked (below : ∀ i ∈ early, i < l.nextId) (context target : Value)
    (kind : ReferenceKind) :
    (l.marked early).addReference context target kind =
      ((l.addReference context target kind).1,
        (l.addReference context target kind).2.marked early) := by
  have found :
      (l.marked early).references.find? (·.written = writtenReference context target kind) =
        (l.references.find? (·.written = writtenReference context target kind)).map
          (mark early) := by
    rw [marked, List.find?_map]
    exact congrArg _ (List.find?_congr fun e _ => by simp)
  unfold addReference
  rw [found]
  cases l.references.find? (·.written = writtenReference context target kind) with
  | some e => simp
  | none =>
    have fresh : l.nextId ∉ early := fun h => absurd (below _ h) (lt_irrefl _)
    simp [marked, takeId, mark, fresh]

theorem placeReference_marked (i : Value) (range : Extent) :
    (l.marked early).placeReference i range = (l.placeReference i range).marked early := by
  have same : ∀ e : ReferenceEntry,
      (if some (mark early e).id = i.number? then
        { mark early e with places := (mark early e).places ++ [some range] } else mark early e) =
      mark early (if some e.id = i.number? then
        { e with places := e.places ++ [some range] } else e) := by
    intro e
    rw [id_mark]
    unfold mark
    split <;> split <;> simp_all
  rw [placeReference, placeReference, marked, marked]
  simp only [List.map_map]
  exact congrArg (fun references => { l with references })
    (List.map_congr_left fun e _ => same e)

theorem addSymbol_marked (key : String) (entry : Int → SymbolEntry) :
    (l.marked early).addSymbol key entry =
      ((l.addSymbol key entry).1, (l.addSymbol key entry).2.marked early) := by
  unfold addSymbol
  rw [show (l.marked early).keys = l.keys from rfl]
  cases l.keys.lookup key <;> rfl

theorem addLocal_marked (name : String) :
    (l.marked early).addLocal name = ((l.addLocal name).1, (l.addLocal name).2.marked early) := by
  unfold addLocal
  rw [show (l.marked early).locals = l.locals from rfl]
  cases l.locals.find? (·.name = name) <;> rfl

theorem perform_nameless (l : Listing) (owner : QualifiedName) :
    (Operation.record (.namelessMember owner)).perform l =
      match l.keys.lookup owner.storedNameless with
      | some i => ([(.namelessMember owner, .number i)], l)
      | none => ([], (l.addKey owner.storedNameless).2) := by
  cases found : l.keys.lookup owner.storedNameless with
  | some i =>
    exact Operation.perform_of_ok (by rw [record, recordNameless, found])
  | none =>
    exact Operation.perform_of_error (by rw [record, recordNameless, found])

theorem recordNameless_marked (owner : QualifiedName) :
    (Operation.record (.namelessMember owner)).perform (l.marked early) =
      (((Operation.record (.namelessMember owner)).perform l).1,
        ((Operation.record (.namelessMember owner)).perform l).2.marked early) := by
  rw [perform_nameless, perform_nameless, show (l.marked early).keys = l.keys from rfl]
  cases l.keys.lookup owner.storedNameless <;> rfl

/-! ### References that are told apart -/

/-- A listing that has given out an identifier to one reference at most. -/
structure Tidy (l : Listing) : Prop where
  consistent : l.Consistent
  nodup : (l.references.map (·.id)).Nodup

theorem tidy_empty : Tidy {} := ⟨consistent_empty, List.nodup_nil⟩

namespace Tidy

theorem id_lt (tidy : l.Tidy) {e : ReferenceEntry} (he : e ∈ l.references) : e.id < l.nextId :=
  tidy.consistent.below (x := .reference e.written) ⟨e, he, rfl, rfl⟩

/-- What leaves the references as they are, but for their places. -/
theorem ofIds {l' : Listing} (tidy : l.Tidy) (leads : Leads l l')
    (same : l'.references.map (·.id) = l.references.map (·.id)) : l'.Tidy :=
  ⟨leads.consistent tidy.consistent, same ▸ tidy.nodup⟩

theorem ids_addSymbol (key : String) (entry : Int → SymbolEntry) :
    (l.addSymbol key entry).2.references.map (·.id) = l.references.map (·.id) := by
  unfold addSymbol
  cases l.keys.lookup key <;> rfl

theorem ids_addFile (path : String) :
    (l.addFile path).2.references.map (·.id) = l.references.map (·.id) := ids_addSymbol _ _

theorem ids_addNamed (name : QualifiedName) :
    (l.addNamed name).2.references.map (·.id) = l.references.map (·.id) := ids_addSymbol _ _

theorem addReference (tidy : l.Tidy) (context target : Value) (kind : ReferenceKind) :
    (l.addReference context target kind).2.Tidy := by
  refine ⟨(leads_addReference l context target kind).1.consistent tidy.consistent, ?_⟩
  unfold Listing.addReference
  cases l.references.find? (·.written = writtenReference context target kind) with
  | some e => exact tidy.nodup
  | none =>
    change (List.map ReferenceEntry.id (l.references ++ [_])).Nodup
    rw [List.map_append, List.nodup_append]
    refine ⟨tidy.nodup, List.nodup_singleton _, ?_⟩
    intro i hi j hj
    obtain ⟨e, he, rfl⟩ := List.mem_map.mp hi
    obtain rfl := List.mem_singleton.mp hj
    exact (tidy.id_lt he).ne

theorem ids_addLocal (name : String) :
    (l.addLocal name).2.references.map (·.id) = l.references.map (·.id) := by
  unfold addLocal
  cases l.locals.find? (·.name = name) <;> rfl

theorem ids_placeReference (i : Value) (range : Extent) :
    (l.placeReference i range).references.map (·.id) = l.references.map (·.id) := by
  rw [placeReference, List.map_map]
  refine List.map_congr_left fun e _ => ?_
  change (if _ then _ else e).id = e.id
  split <;> rfl

theorem ids_settle : l.settle.references.map (·.id) = l.references.map (·.id) := by
  rw [settle, List.map_map]
  refine List.map_congr_left fun e _ => ?_
  change (if _ then _ else e).id = e.id
  split <;> rfl

/-- Every operation tells references apart. -/
theorem perform (tidy : l.Tidy) (op : Operation) : (op.perform l).2.Tidy := by
  have leads := (leads_perform op l).1
  cases op with
  | read => exact tidy.ofIds leads ids_settle
  | record r =>
    cases r with
    | reference context target kind => exact tidy.addReference context target kind
    | unsolvedReference context kind range =>
      have named := tidy.ofIds (leads_addNamed l .unsolved).1 (ids_addNamed .unsolved)
      have referred := named.addReference context (.number (l.addNamed .unsolved).1) kind
      exact referred.ofIds (leads_placeReference _ _ range) (ids_placeReference _ range)
    | referenceLocation i range => exact tidy.ofIds leads (ids_placeReference i range)
    | file path => exact tidy.ofIds leads (ids_addFile path)
    | symbol name => exact tidy.ofIds leads (ids_addNamed name)
    | localSymbol name => exact tidy.ofIds leads (ids_addLocal name)
    | namelessMember owner =>
      refine tidy.ofIds leads ?_
      rw [perform_nameless]
      cases l.keys.lookup owner.storedNameless <;> rfl
    | error message fatal range => cases message <;> exact tidy.ofIds leads rfl
    | _ => exact tidy.ofIds leads rfl

end Tidy

/-- The listing has given out all these identifiers. -/
def Knows (l : Listing) (early : List Int) : Prop := ∀ i ∈ early, ∃ x, l.Issued x i

namespace Knows

theorem below (known : l.Knows early) (consistent : l.Consistent) : ∀ i ∈ early, i < l.nextId := by
  intro i hi
  obtain ⟨x, issued⟩ := known i hi
  exact consistent.below issued

theorem later {l' : Listing} (known : l.Knows early) (leads : Leads l l') : l'.Knows early := by
  intro i hi
  obtain ⟨x, issued⟩ := known i hi
  exact ⟨x, leads.issued issued⟩

theorem append_unplaced (known : l.Knows early) : l.Knows (early ++ l.unplaced) := by
  intro i hi
  rcases List.mem_append.mp hi with hi | hi
  · exact known i hi
  · obtain ⟨e, he, rfl⟩ := List.mem_map.mp hi
    exact ⟨.reference e.written, e, List.mem_of_mem_filter he, rfl, rfl⟩

end Knows

/-! ### Operations -/

/-- A recording in a marked listing. -/
theorem record_marked (consistent : l.Consistent) (known : l.Knows early) (r : Recording) :
    (Operation.record r).perform (l.marked early) =
      (((Operation.record r).perform l).1, ((Operation.record r).perform l).2.marked early) := by
  -- A recording that gives back an identifier is what its function does with the listing.
  have identified {f : Listing → Int × Listing}
      (same : f (l.marked early) = ((f l).1, (f l).2.marked early)) :
      ([(r, Value.number (f (l.marked early)).1)], (f (l.marked early)).2) =
        ([(r, Value.number (f l).1)], (f l).2.marked early) := by
    rw [same]
  cases r with
  | file path => exact identified (f := (·.addFile path)) (addSymbol_marked _ _)
  | symbol name => exact identified (f := (·.addNamed name)) (addSymbol_marked _ _)
  | namelessMember owner => exact recordNameless_marked owner
  | reference context target kind =>
    exact identified (f := (·.addReference context target kind))
      (addReference_marked (known.below consistent) context target kind)
  | referenceLocation i range =>
    exact congrArg (Prod.mk _) (placeReference_marked i range)
  | unsolvedReference context kind range =>
    obtain ⟨leads, -⟩ := leads_addNamed l .unsolved
    have below := (known.later leads).below (leads.consistent consistent)
    have named : (l.marked early).addNamed .unsolved =
        ((l.addNamed .unsolved).1, (l.addNamed .unsolved).2.marked early) :=
      addSymbol_marked _ _
    refine identified (f := fun l =>
      let target := l.addNamed .unsolved
      let reference := target.2.addReference context (.number target.1) kind
      (reference.1, reference.2.placeReference (.number reference.1) range)) ?_
    simp only [named, addReference_marked below, placeReference_marked]
  | localSymbol name => exact identified (f := (·.addLocal name)) (addLocal_marked name)
  | error message fatal range => cases message <;> rfl
  | _ => rfl

theorem mem_unplaced (tidy : l.Tidy) {e : ReferenceEntry} (he : e ∈ l.references) :
    e.id ∈ l.unplaced ↔ e.places.isEmpty := by
  constructor
  · intro hid
    obtain ⟨e', he', same⟩ := List.mem_map.mp hid
    obtain ⟨mem, empty⟩ := List.mem_filter.mp he'
    obtain rfl : e' = e := List.inj_on_of_nodup_map tidy.nodup mem he same
    exact empty
  · intro empty
    exact List.mem_map.mpr ⟨e, List.mem_filter.mpr ⟨he, empty⟩, rfl⟩

/-- Reading a marked listing. -/
theorem settle_marked (tidy : l.Tidy) :
    (l.marked early).settle = l.marked (early ++ l.unplaced) := by
  rw [settle, marked, marked]
  simp only [List.map_map]
  refine congrArg (fun references => { l with references }) (List.map_congr_left fun e he => ?_)
  change (if (mark early e).places.isEmpty then { mark early e with places := [none] }
    else mark early e) = mark (early ++ l.unplaced) e
  unfold mark
  simp only [List.mem_append, mem_unplaced tidy he]
  by_cases hearly : e.id ∈ early
  · simp [hearly]
  · simp only [hearly, if_false, false_or]
    split
    · rename_i empty
      rw [List.isEmpty_iff.mp empty]
    · rfl

/-- Operations with readings among them: the answers are those without the readings, and the
listing is marked at the references that had no place at a reading. -/
theorem performAll_eq_marked (ops : List Operation) (tidy : l.Tidy) (known : l.Knows early) :
    (l.marked early).performAll ops =
      ((l.performAll (unread ops)).1,
        (l.performAll (unread ops)).2.marked (early ++ l.readEarly ops)) := by
  induction ops generalizing l early with
  | nil => rw [readEarly, List.append_nil]; rfl
  | cons op ops ih =>
    cases op with
    | read =>
      change (l.marked early).settle.performAll ops = _
      rw [settle_marked tidy, ih tidy known.append_unplaced, readEarly, List.append_assoc]
      rfl
    | record r =>
      have next := ih (tidy.perform (.record r)) (known.later (leads_perform (.record r) l).1)
      change (((Operation.record r).perform (l.marked early)).1 ++
        (((Operation.record r).perform (l.marked early)).2.performAll ops).1,
        (((Operation.record r).perform (l.marked early)).2.performAll ops).2) = _
      rw [record_marked tidy.consistent known r, next]
      rfl

theorem performAll_empty_eq_marked (ops : List Operation) :
    performAll {} ops =
      ((performAll {} (unread ops)).1,
        (performAll {} (unread ops)).2.marked (readEarly {} ops)) := by
  have known : Knows {} [] := fun i hi => by cases hi
  have run := performAll_eq_marked ops tidy_empty known
  rwa [marked_nil, List.nil_append] at run

/-! ### Lines -/

/-- The line that an early reading adds to those of a reference. -/
def extraLines (l : Listing) (early : List Int) (e : ReferenceEntry) : List String :=
  if e.id ∈ early ∧ e.places ≠ [] then [l.referenceLine e none] else []

theorem shownLines_mark (l : Listing) (e : ReferenceEntry) :
    l.shownLines (mark early e) = l.extraLines early e ++ l.shownLines e := by
  unfold shownLines extraLines mark
  by_cases hearly : e.id ∈ early
  · cases places : e.places with
    | nil => simp [hearly, referenceLine]
    | cons place rest => simp [hearly, referenceLine]
  · simp [hearly]

theorem references_read_marked (l : Listing) :
    (l.marked early).read.1.references =
      l.references.flatMap fun e => l.extraLines early e ++ l.shownLines e := by
  rw [references_read, marked, List.flatMap_map]
  exact List.flatMap_congr fun e _ => l.shownLines_mark e

end Listing

theorem length_flatMap_append {α β : Type} (f g : α → List β) (xs : List α) :
    (xs.flatMap fun a => f a ++ g a).length = (xs.flatMap f).length + (xs.flatMap g).length := by
  induction xs with
  | nil => rfl
  | cons a xs ih =>
    simp only [List.flatMap_cons, List.length_append, ih]
    omega

/-- What is put in front of the parts of a list is nothing if the list stays as it is. -/
theorem flatMap_append_eq_iff {α β : Type} {f g : α → List β} {xs : List α} :
    (xs.flatMap fun a => f a ++ g a) = xs.flatMap g ↔ ∀ a ∈ xs, f a = [] := by
  constructor
  · intro same
    have lengths := congrArg List.length same
    rw [length_flatMap_append] at lengths
    exact List.flatMap_eq_nil_iff.mp (List.length_eq_zero_iff.mp (by omega))
  · intro none
    refine List.flatMap_congr fun a ha => ?_
    rw [none a ha, List.nil_append]

open Listing in
/-- Readings among the operations on a new listing change nothing that is given back, and nothing
but the lines of references in the end: a reference that had no place at a reading and has got one
since is shown once more, without a place, before its other lines. So the lines stay as they are if
there is no such reference, and only then. -/
theorem reading_shows_early_references (ops : List Operation) :
    let l := (performAll {} (unread ops)).2
    let early := readEarly {} ops
    let shown := (performAll {} ops).2.read.1
    (performAll {} ops).1 = (performAll {} (unread ops)).1 ∧
      shown = { l.read.1 with
        references := l.references.flatMap fun e => l.extraLines early e ++ l.shownLines e } ∧
      l.read.1.references = l.references.flatMap l.shownLines ∧
      (shown = l.read.1 ↔ ∀ e ∈ l.references, e.id ∈ early → e.places = []) := by
  intro l early shown
  have run := performAll_empty_eq_marked ops
  have ofMarked : shown = (l.marked early).read.1 :=
    congrArg (fun answers : _ × Listing => answers.2.read.1) run
  have lines : shown = { l.read.1 with
      references := l.references.flatMap fun e => l.extraLines early e ++ l.shownLines e } := by
    rw [ofMarked, ← references_read_marked]
    rfl
  refine ⟨by rw [run], lines, l.references_read, ?_⟩
  have sameIff : shown = l.read.1 ↔
      (l.references.flatMap fun e => l.extraLines early e ++ l.shownLines e) =
        l.references.flatMap l.shownLines := by
    rw [lines, ← l.references_read]
    exact ⟨congrArg View.references, fun same => by rw [same]⟩
  rw [sameIff, flatMap_append_eq_iff]
  refine forall₂_congr fun e _ => ?_
  simp [extraLines]

open Listing in
/-- A reading in between may show a reference once more. -/
theorem early_reading_shows_twice :
    let before : List Operation := [.record (.symbol (.dotted ["a"])),
      .record (.symbol (.dotted ["b"])), .record (.reference (.number 1) (.number 2) .call)]
    let place : List Operation :=
      [.record (.referenceLocation (.number 3) (SourceRange.extent ⟨1, 1, 1, 4⟩))]
    (performAll {} (before ++ place)).2.read.1.references = ["CALL: a -> b at [1:1|1:4]"] ∧
      (performAll {} (before ++ .read :: place)).2.read.1.references =
        ["CALL: a -> b", "CALL: a -> b at [1:1|1:4]"] := by
  decide +kernel

end CodeIndex
