import CodeIndex.Proofs.Mentions

/-!
# Definitions in other files

Whether a name stands at one of its definitions is told by positions alone: by the line and the
column of a class or function, and by the range of the name of a variable. The file that holds the
definition is not looked at. So a definition in another file that happens to stand at the same
position is taken for the name itself. If it is that of a variable, the variable of the other file
is recorded as defined here. If it is that of a class or function, the visit ends, and the name is
not located.

## What is proved

* `MentionedAs.defines_iff` — one definition makes the name the place of a symbol just if it is that
  of a variable with the same range.
* `InTurn.nameReported` — so it is for all definitions in turn, up to a class or function at the
  same position.
* `foreign_definitions_told_by_position` — what the visit of a name logs if all its definitions are
  in other files.
-/

namespace CodeIndex

open Indexing

/-! ### Calls -/

/-- The call says that a symbol is defined, or where its name stands. -/
@[simp] def Call.isDefining : Call → Bool
  | .definitionKind _ _ | .symbolLocation _ _ _ => true
  | _ => false

/-- The call locates a name with the range `r` as a reference, a qualifier, a local variable or
something unknown. -/
def Call.IsUse (r : Extent) (call : Call) : Prop := call.isDefining = false ∧ call.located? = some r

namespace Semantic.Setting

/-! ### Variables at the same range -/

/-- The definition `d` is that of a variable whose name stands in `file` at `site`, with the same
range as the place `c`, and makes `c` the place of the variable. -/
structure DefinedHere (s : Setting) (c : Cursor) (d : Definition) (file : String) (site : Cursor) :
    Prop where
  isVariable : d.kind = .ok (some "statement")
  isLocated : Setting.isLocated d = .ok true
  inFile : s.fileOf d = .ok (some file)
  atSite : d.site.cursor = .ok (some site)
  sameRange : Setting.sameRange site c = .ok true
  isSymbol : ∃ role, s.role c site file = .ok role ∧ role.defines = true
  named : ∃ q, s.qualifiedName site file = .ok (some q)

/-- The definition makes the place that of a symbol. -/
def Defines (s : Setting) (c : Cursor) (d : Definition) : Prop :=
  ∃ file site, s.DefinedHere c d file site

/-- Only the same range makes a name the definition. -/
theorem sameRange_of_defines {s : Setting} {c site : Cursor} {file : String} {role : Role}
    (h : s.role c site file = .ok role) (defines : role.defines = true) :
    sameRange site c = .ok true := by
  have ofRange : ∀ {yes no : Role}, no.defines = false →
      (do if ← sameRange site c then return yes else return no) = .ok role →
      sameRange site c = .ok true := by
    intro yes no other h
    obtain ⟨b, same, h⟩ := except_bind_eq_ok.mp h
    cases b with
    | true => exact same
    | false =>
      obtain rfl := Except.ok.inj h
      rw [other] at defines
      cases defines
  have empty : (.ok {} : Except Fault Role) ≠ .ok role := by
    rintro ⟨⟩
    cases defines
  unfold Setting.role at h
  split at h
  · exact ofRange rfl h
  · split at h
    · unfold fieldRole at h
      split at h
      · exact ofRange rfl h
      · exact absurd h empty
    · unfold attributeRole at h
      split at h
      · split at h
        · exact absurd h empty
        · obtain ⟨owner, -, h⟩ := except_bind_eq_ok.mp h
          cases owner with
          | none => exact absurd h empty
          | some owner => exact ofRange rfl h
      · exact absurd h empty

theorem isSome_symbol_of_defines {s : Setting} {c site : Cursor} {file : String} {role : Role}
    (h : s.role c site file = .ok role) (defines : role.defines = true) :
    role.symbol.isSome = true := by
  have possible := role_mem h
  simp only [possibleRoles, List.mem_cons, List.not_mem_nil, or_false] at possible
  rcases possible with rfl | rfl | rfl | rfl | rfl | rfl <;> simp at defines ⊢

/-! ### One definition -/

/-- The mention makes the name the place of a symbol. -/
def Mention.defines : Mention → Bool
  | .symbol _ role => role.defines
  | .qualifier _ _ | .construction _ | .localVariable _ => false

section Definitions

variable {s : Setting} {x file : Value} {c : Cursor} {p : Position} {r : SourceRange}
  {d : Definition} {m : Mention} {entries : List LogEntry}

theorem Mention.Entries.exists_defining (h : m.Entries x file r entries) :
    (∃ e ∈ entries, e.call.isDefining = true) ↔ m.defines = true := by
  induction h with
  | symbol stored role =>
    obtain ⟨symbol, defines, reference⟩ := role
    cases symbol <;> cases defines <;> cases reference <;> simp [Role.entries, Mention.defines]
  | construction _ _ ofClass ofConstructor =>
    simp only [List.mem_append, or_and_right, exists_or, ofClass, ofConstructor]
    simp [Mention.defines]
  | qualifier | localVariable => simp [Mention.defines]

/-- What is defined here can be recorded. -/
theorem Defines.recordable (h : s.Defines c d) : s.Recordable c d := by
  obtain ⟨file, site, h⟩ := h
  obtain ⟨role, inRole, defines⟩ := h.isSymbol
  have known : (role.symbol.isSome || role.reference.isSome) = true := by
    rw [isSome_symbol_of_defines inRole defines, Bool.true_or]
  unfold Recordable
  rw [h.isVariable]
  exact ⟨h.isLocated, file, site, role, h.inFile, h.atSite, inRole,
    by rw [if_pos known]; exact h.named⟩

/-- One definition makes the name the place of a symbol just if it is that of a variable with the
same range. -/
theorem MentionedAs.defines_iff {ending : Option Verdict} (h : MentionedAs s c d m ending)
    (recordable : s.Recordable c d) : m.defines = true ↔ s.Defines c d := by
  have other : ∀ {kind}, d.kind = .ok (some kind) → kind ≠ "statement" → ¬ s.Defines c d := by
    rintro kind isKind apart ⟨file, site, h⟩
    exact apart (Option.some.inj (Except.ok.inj (isKind.symm.trans h.isVariable)))
  have ofSite : ∀ {file site role}, s.fileOf d = .ok (some file) →
      d.site.cursor = .ok (some site) → s.role c site file = .ok role → s.Defines c d →
      role.defines = true := by
    rintro file site role inFile atSite inRole ⟨file', site', h⟩
    obtain rfl := Option.some.inj (Except.ok.inj (inFile.symm.trans h.inFile))
    obtain rfl := Option.some.inj (Except.ok.inj (atSite.symm.trans h.atSite))
    obtain ⟨role', inRole', defines⟩ := h.isSymbol
    obtain rfl := Except.ok.inj (inRole.symm.trans inRole')
    exact defines
  cases h with
  | lasting isKind inFile atSite inRole _ named =>
    unfold Recordable at recordable
    rw [isKind] at recordable
    exact ⟨fun defines => ⟨_, _, isKind, recordable.1, inFile, atSite,
      sameRange_of_defines inRole defines, ⟨_, inRole, defines⟩, _, named⟩,
      ofSite inFile atSite inRole⟩
  | localVariable _ inFile atSite inRole unknown =>
    refine iff_of_false Bool.false_ne_true fun defines => ?_
    have symbol := isSome_symbol_of_defines inRole (ofSite inFile atSite inRole defines)
    rw [symbol] at unknown
    cases unknown
  | object isKind | moduleUnclear isKind | moduleQualifier isKind | moduleReference isKind
  | classUnclear isKind | classQualifier isKind | classReference isKind | classUntold isKind
  | classConstructed isKind | function isKind | functionUntold isKind | parameter isKind =>
    exact iff_of_false Bool.false_ne_true (other isKind (by decide))

theorem Judged.exists_defining {verdict : Verdict} (start : c.tree.start = .ok p)
    (h : Judged s x file c p r d verdict entries) :
    (∃ e ∈ entries, e.call.isDefining = true) ↔ s.Defines c d := by
  have recorded := h.ne_nil_iff start
  obtain ⟨ending, -, considered⟩ := h
  cases considered with
  | here | passed =>
    exact iff_of_false (by simp) fun defines => recorded.mpr defines.recordable rfl
  | recorded _ recordable as written =>
    exact written.exists_defining.trans (as.defines_iff recordable)

end Definitions

/-! ### Definitions in turn -/

/-- The definitions that are looked at: those before the first class or function that stands at the
position. -/
def lookedAt (p : Position) (ds : List (Option Definition)) : List (Option Definition) :=
  ds.takeWhile fun d => !d.any (·.isAt p)

/-- What the entries for the definitions `ds` of the name at `c` say, after other definitions of
which one `settled` what it is or none did. -/
structure NameReported (s : Setting) (c : Cursor) (p : Position) (r : Extent)
    (ds : List (Option Definition)) (settled : Bool) (entries : List LogEntry) : Prop where
  defining : (∃ e ∈ entries, e.call.isDefining = true) ↔
    ∃ d, some d ∈ lookedAt p ds ∧ s.Defines c d
  used : settled = false →
    (∀ d, some d ∈ ds → d.isAt p = false ∧ ¬ s.Defines c d) → ∃ e ∈ entries, e.call.IsUse r
  nothing : ∀ d rest, ds = some d :: rest → d.isAt p = true → entries = []

section Turns

variable {s : Setting} {x file : Value} {c : Cursor} {p : Position} {r : SourceRange}
  {d : Definition} {ds : List (Option Definition)} {settled settled' : Bool}
  {xs ys : List LogEntry}

/-- A missing entry makes no difference. -/
theorem NameReported.none (h : NameReported s c p r ds settled xs) :
    NameReported s c p r (.none :: ds) settled xs where
  defining := by simpa [lookedAt] using h.defining
  used := fun unsettled other =>
    h.used unsettled fun d hd => other d (List.mem_cons_of_mem _ hd)
  nothing := by simp

/-- A class or function at the position of the name ends the visit. -/
theorem NameReported.here (ds : List (Option Definition)) (settled : Bool)
    (here : d.isAt p = true) : NameReported s c p r (some d :: ds) settled [] where
  defining := by simp [lookedAt, here]
  used := by
    intro _ other
    rw [(other d List.mem_cons_self).1] at here
    cases here
  nothing := by simp

/-- Another definition is followed by the rest. -/
theorem NameReported.cons {v : Verdict} (start : c.tree.start = .ok p)
    (judged : Judged s x file c p r d v xs) (apart : v ≠ .here)
    (h : NameReported s c p r ds settled' ys)
    (settles : settled = false → settled' = true → v = .solved) :
    NameReported s c p r (some d :: ds) settled (xs ++ ys) where
  defining := by
    have other : d.isAt p = false := Bool.eq_false_iff.mpr (mt judged.isAt_iff.mp apart)
    have looked : lookedAt p (some d :: ds) = some d :: lookedAt p ds := by simp [lookedAt, other]
    simp only [looked, List.mem_append, List.mem_cons, Option.some.injEq, or_and_right, exists_or,
      exists_eq_left, judged.exists_defining start, h.defining]
  used := by
    intro unsettled others
    cases hs : settled' with
    | true =>
      obtain rfl := settles unsettled hs
      have none := mt (judged.exists_defining start).mp (others d List.mem_cons_self).2
      obtain ⟨e, he, located⟩ := judged.exists_located
      refine ⟨e, List.mem_append_left ys he, ?_, located⟩
      exact Bool.eq_false_iff.mpr fun defining => none ⟨e, he, defining⟩
    | false =>
      obtain ⟨e, he, isUse⟩ := h.used hs fun d hd => others d (List.mem_cons_of_mem _ hd)
      exact ⟨e, List.mem_append_right xs he, isUse⟩
  nothing := by
    rintro _ _ ⟨rfl, rfl⟩ here
    exact absurd (judged.isAt_iff.mp here) apart

theorem InTurn.nameReported (start : c.tree.start = .ok p)
    (h : InTurn (Judged s x file c p r) (UnknownEntries x file r) ds settled xs) :
    NameReported s c p r ds settled xs := by
  induction h with
  | settled => exact ⟨by simp [lookedAt], by simp, by simp⟩
  | unsettled h =>
    obtain ⟨v, rfl⟩ := h
    exact ⟨by simp [lookedAt], fun _ _ => ⟨_, List.mem_singleton_self _, rfl, rfl⟩, by simp⟩
  | missing _ ih => exact ih.none
  | here first =>
    obtain rfl := first.eq_nil
    exact .here _ _ (first.isAt_iff.mpr rfl)
  | solved first _ ih => exact ih.cons start first (by simp) fun _ _ => rfl
  | unsolved first _ ih =>
    refine ih.cons start first (by simp) fun unsettled isSettled => ?_
    cases unsettled.symm.trans isSettled

end Turns

theorem fileOf_of_modulePath {s : Setting} {d : Definition} {file : String}
    (h : d.modulePath = .ok (some file)) : s.fileOf d = .ok (some file) := by
  unfold fileOf
  rw [h]
  rfl

/-- **Positions tell what a definition in another file is to a name.** Let all definitions of a name
be in files other than the indexed one. The visit ends without a fault. A symbol is recorded as
defined just if one of the definitions that are looked at is that of a variable whose name has the
same range in its file. If there is none, and no class or function has the position of the name, the
name is located as something else. A class or function with that position as the first definition
keeps the visit from recording anything at all. -/
theorem foreign_definitions_told_by_position (s : Setting) (c : Cursor) (token : Token)
    (leaf : c.tree = .leaf token) (isName : token.kind = .name)
    (noConstant : constantNames.contains token.text = false)
    (foreign : ∀ d, some d ∈ s.definitionsAt c s.source.path →
      ∃ file, d.modulePath = .ok (some file) ∧ file ≠ s.source.path)
    (σ : Trace Client) (context : σ.contexts ≠ []) :
    ∃ r τ xs, c.range = .ok r ∧ s.visitSelf c σ = .ok () τ ∧ Made σ τ xs ∧
      ((∃ x ∈ xs, x.isDefining = true) ↔
        ∃ d file site, some d ∈ lookedAt token.start (s.definitionsAt c s.source.path) ∧
          file ≠ s.source.path ∧ s.DefinedHere c d file site) ∧
      ((∀ d, some d ∈ s.definitionsAt c s.source.path →
        d.isAt token.start = false ∧ ∀ file site, ¬ s.DefinedHere c d file site) →
        ∃ x ∈ xs, x.IsUse r.extent) ∧
      ∀ d rest, s.definitionsAt c s.source.path = some d :: rest → d.isAt token.start = true →
        xs = [] := by
  obtain ⟨_, above⟩ := c
  subst leaf
  obtain ⟨x, stands⟩ := Trace.exists_stands context
  obtain ⟨τ, entries, ran, adds, written⟩ := exists_nameEntries s above isName stands
  unfold NameEntries at written
  rw [if_neg (Bool.eq_false_iff.mp noConstant)] at written
  have reported := written.nameReported rfl
  refine ⟨_, τ, _, rfl, ran, adds.made context, ?_, fun others => ?_, fun d rest answers here => ?_⟩
  · simp only [List.mem_map, exists_exists_and_eq_and, reported.defining]
    constructor
    · rintro ⟨d, looked, file, site, h⟩
      obtain ⟨other, inOther, apart⟩ := foreign d ((List.takeWhile_sublist _).subset looked)
      have same := (fileOf_of_modulePath inOther).symm.trans h.inFile
      obtain rfl := Option.some.inj (Except.ok.inj same)
      exact ⟨d, other, site, looked, apart, h⟩
    · rintro ⟨d, file, site, looked, -, h⟩
      exact ⟨d, looked, file, site, h⟩
  · obtain ⟨e, he, isUse⟩ := reported.used rfl fun d hd =>
      ⟨(others d hd).1, fun ⟨file, site, h⟩ => (others d hd).2 file site h⟩
    exact ⟨e.call, List.mem_map_of_mem he, isUse⟩
  · rw [reported.nothing d rest answers here, List.map_nil]

/-- A resolver that finds a variable and a function in the second line of another file. -/
def otherFileResolver : Resolver where
  answers :=
    let definition (kind text : String) (column : Nat) : Definition :=
      { kind := .ok (some kind), line := .ok (some 2), column := .ok (some column),
        modulePath := .ok (some "/work/b.py"),
          site := .place (.root (.tokenAt .name text 2 column)) }
    [(⟨some "/work/a.py", ⟨2, 0⟩⟩, .ok [some (definition "statement" "v" 0)]),
      (⟨some "/work/b.py", ⟨2, 0⟩⟩, .ok [some (definition "statement" "v" 0)]),
      (⟨some "/work/a.py", ⟨2, 4⟩⟩, .ok [some (definition "function" "f" 4)])]

/-- The variable of the other file has the range of the name, so it is recorded as defined here. -/
theorem variable_of_other_file_defined :
    let s : Setting :=
      ⟨⟨"/work", "/work/a.py", ["/work"]⟩, 3, 7, "/stubs", otherFileResolver, false⟩
    let σ : Trace Client := finalState (s.begin ({ database := {} } : Client).fresh)
    let v : Token := { kind := .name, text := "v", start := ⟨2, 0⟩ }
    let c : Cursor := .root (.leaf v)
    (∀ d, some d ∈ s.definitionsAt c s.source.path →
      ∃ file, d.modulePath = .ok (some file) ∧ file ≠ s.source.path) ∧ σ.contexts ≠ [] ∧
    (∃ d site, some d ∈ lookedAt v.start (s.definitionsAt c s.source.path) ∧
      s.DefinedHere c d "/work/b.py" site) ∧
    ∃ τ xs, s.visitSelf c σ = .ok () τ ∧ Made σ τ xs ∧ ∃ x ∈ xs, x.isDefining = true := by
  intro s σ v c
  have foreign : ∀ d, some d ∈ s.definitionsAt c s.source.path →
      ∃ file, d.modulePath = .ok (some file) ∧ file ≠ s.source.path := by
    intro d hd
    obtain rfl := Option.some.inj (List.mem_singleton.mp hd)
    exact ⟨"/work/b.py", rfl, by decide⟩
  have context : σ.contexts ≠ [] := by decide +kernel
  have defined : ∃ d site, some d ∈ lookedAt v.start (s.definitionsAt c s.source.path) ∧
      s.DefinedHere c d "/work/b.py" site := by
    have role : s.role c c "/work/b.py" =
        .ok { symbol := some .globalVariable, defines := true } := by decide +kernel
    exact ⟨_, c, List.mem_cons_self, rfl, rfl, rfl, rfl, sameRange_of_defines role rfl,
      ⟨_, role, rfl⟩, .dotted ["b", "v"], by decide +kernel⟩
  obtain ⟨r, τ, xs, -, ran, made, defining, -⟩ :=
    foreign_definitions_told_by_position s c v rfl rfl (by decide) foreign σ context
  obtain ⟨d, site, looked, h⟩ := defined
  exact ⟨foreign, context, ⟨d, site, looked, h⟩, τ, xs, ran, made,
    defining.mpr ⟨d, _, site, looked, by decide, h⟩⟩

/-- Both names refer to what another file defines, but the first is recorded as the definition and
the second is not recorded. -/
theorem definitions_mistaken_for_names :
    let s : Setting :=
      ⟨⟨"/work", "/work/a.py", ["/work"]⟩, 3, 7, "/stubs", otherFileResolver, false⟩
    let σ : Trace Client := finalState (s.begin ({ database := {} } : Client).fresh)
    let v : Cursor := .root (.tokenAt .name "v" 2 0)
    let f : Cursor := .root (.tokenAt .name "f" 2 4)
    let made (c : Cursor) : List Call :=
      ((finalState (s.visitSelf c σ)).calls.drop σ.calls.length).map LogEntry.call
    (∀ c ∈ [v, f], ∃ d, s.definitionsAt c s.source.path = [some d] ∧
      d.modulePath = .ok (some "/work/b.py")) ∧
    (made v).any Call.isDefining = true ∧ made f = [] := by
  intro s σ v f made
  refine ⟨?_, by decide +kernel, by decide +kernel⟩
  rw [List.forall_mem_cons, List.forall_mem_singleton]
  exact ⟨⟨_, rfl, rfl⟩, ⟨_, rfl, rfl⟩⟩

end Semantic.Setting

end CodeIndex
