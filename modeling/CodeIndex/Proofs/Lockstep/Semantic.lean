import CodeIndex.Proofs.Lockstep
import CodeIndex.Proofs.Walk.Semantic

/-!
# Two runs of the semantic indexer

Whatever the semantic indexer does for a place that is no definition keeps every bond between two
recorders, for every resolver. A fault that is caught while one definition of a name is looked at
comes up in both runs or in neither.
-/

namespace CodeIndex.Semantic.Setting

open Indexing

variable {ρ σ : Type} [Recorder ρ] [Recorder σ] {B : Bond ρ σ} {known : List (Value × Value)}

/-! ### With and without a tree listing -/

/-- The setting with a tree listing or without. -/
abbrev withListing (s : Setting) (verbose : Bool) : Setting := { s with verbose }

section Listing

variable (s : Setting) (b : Bool)

theorem nameByDefinition_withListing
    (outer : Cursor → String → Except Fault (Option QualifiedName)) (file : String)
    (ds : List (Option Definition)) :
    (s.withListing b).nameByDefinition outer file ds = s.nameByDefinition outer file ds := by
  induction ds with
  | nil => rfl
  | cons d ds ih =>
    cases d with
    | none => exact ih
    | some d =>
      simp only [nameByDefinition, ih]
      rfl

theorem nameUpTo_withListing (fuel : Nat) (c : Cursor) (file : String) :
    (s.withListing b).nameUpTo fuel c file = s.nameUpTo fuel c file := by
  induction fuel generalizing c file with
  | zero => rfl
  | succ fuel ih =>
    have outer : (s.withListing b).nameUpTo fuel = s.nameUpTo fuel := by
      funext c file
      exact ih c file
    simp only [nameUpTo, outer, nameByDefinition_withListing]
    rfl

theorem qualifiedName_withListing (c : Cursor) (file : String) :
    (s.withListing b).qualifiedName c file = s.qualifiedName c file := by
  simp only [qualifiedName, nameUpTo_withListing]

theorem nameOfDefinition_withListing (d : Definition) :
    (s.withListing b).nameOfDefinition d = s.nameOfDefinition d := by
  simp only [nameOfDefinition, qualifiedName_withListing]
  rfl

theorem openingAs_withListing (kind : SymbolKind) (contextKind : ContextKind) (c : Cursor) :
    (s.withListing b).openingAs kind contextKind c = s.openingAs kind contextKind c := by
  simp only [openingAs, qualifiedName_withListing]

omit [Recorder ρ] in
theorem localName_withListing (d : Definition) :
    ((s.withListing b).localName d : Indexing ρ String) = s.localName d := by
  simp only [localName, qualifiedName_withListing]
  rfl

theorem consider_withListing (c : Cursor) (d : Definition) :
    ((s.withListing b).consider c d : Indexing ρ Verdict) = s.consider c d := by
  simp only [consider, referToClass, referToFunction, referToLocal, referToVariable,
    nameOfDefinition_withListing, qualifiedName_withListing, localName_withListing]
  rfl

end Listing

/-! ### Local variables -/

/-- The name of a local variable is the same in both runs, and it is not empty. -/
theorem agree_localName (s : Setting) (d : Definition) :
    B.Agree known (s.localName d : Indexing ρ String) (s.localName d)
      fun _ _ name name' => name = name' ∧ name ≠ "" := by
  unfold localName
  refine .liftBind fun site => ?_
  refine .liftBind fun file => ?_
  extract_lets function write complete write' complete'
  have agree_write : ∀ owner, B.Agree known (write owner) (write' owner)
      fun _ _ name name' => name = name' ∧ name ≠ "" := by
    intro owner
    unfold write write'
    split
    · exact .throw _
    · refine .liftBind fun text => .pureSuch ?_
      intro h
      have chars := congrArg String.toList h
      simp at chars
  have agree_complete : ∀ owner, B.Agree known (complete owner) (complete' owner)
      fun _ _ name name' => name = name' ∧ name ≠ "" := by
    intro owner
    unfold complete complete'
    split
    · exact .contextBind fun top id => .bind (.pure _) agree_write
    · exact .bind (.pure _) agree_write
  clear_value function complete complete'
  split
  · exact .bind (.pure _) agree_complete
  · refine .liftBind fun name => ?_
    split
    · exact .bind (.pure _) agree_complete
    · refine .liftBind fun q => ?_
      split <;> exact .bind (.pure _) agree_complete

theorem agree_referToLocal (s : Setting) (c : Cursor) (d : Definition) :
    B.Agree known (s.referToLocal c d : Indexing ρ Bool) (s.referToLocal c d) := by
  refine .bindSuch (agree_localName s d) fun name nonempty => ?_
  refine .liftBind fun range => ?_
  exact .bind (.useLocal range nonempty) fun _ => .pure _

/-! ### Symbols -/

theorem numbered_orImported (c : Cursor) {kind : ReferenceKind} (numbered : kind.Numbered) :
    (orImported c kind).Numbered := by
  unfold orImported
  split
  · exact ⟨_, rfl⟩
  · exact numbered

theorem numbered_classReferenceKind (c : Cursor) : (classReferenceKind c).Numbered := by
  unfold classReferenceKind
  split
  · exact ⟨_, rfl⟩
  · split
    · exact ⟨_, rfl⟩
    · split
      · exact ⟨_, rfl⟩
      · exact numbered_orImported c ⟨_, rfl⟩

theorem agree_referToInstance (c : Cursor) (d : Definition) :
    B.Agree known (referToInstance c d : Indexing ρ Bool) (referToInstance c d) := by
  refine .liftBind fun name => ?_
  refine .bindSymbol (.symbol _) fun v w => ?_
  refine .bind (.note (.symbolKind (by simp) _) rfl) fun _ => ?_
  refine .liftBind fun range => ?_
  exact .bind (.refer range (numbered_orImported c ⟨_, rfl⟩) (by simp)) fun _ => .pure _

/-- The definition is that of a module which is recorded without a name of its own. -/
def IsNamelessModule (s : Setting) (d : Definition) : Prop :=
  d.kind = .ok (some "module") ∧ ∃ owner, s.recordingOfModule d = .ok (.namelessMember owner)

theorem agree_referToModule (s : Setting) (c : Cursor) {d : Definition}
    (isModule : d.kind = .ok (some "module")) (named : s.IsNamelessModule d → B.nameless) :
    B.Agree known (s.referToModule c d : Indexing ρ Bool) (s.referToModule c d) := by
  refine .liftBindOf fun r hr => ?_
  have recorded : B.Agree known (emit r : Indexing ρ Value) (emit r) B.link := by
    rcases recordingOfModule_isSymbol hr with ⟨q, rfl⟩ | ⟨q, rfl⟩
    · exact .symbol q
    · exact .emitSymbol (.namelessMember q) rfl fun _ => named ⟨isModule, q, hr⟩
  refine .bindSymbol recorded fun v w => ?_
  refine .bind (.note (.symbolKind (by simp) _) rfl) fun _ => ?_
  refine .liftBind fun isQualifier => ?_
  split
  · refine .liftBind fun range => ?_
    exact .bind (.note (.qualifierLocation (by simp) _) rfl) fun _ => .pure _
  · have numbered :
        (if c.within .importName then ReferenceKind.importing else .usage).Numbered := by
      split <;> exact ⟨_, rfl⟩
    refine .liftBind fun range => ?_
    exact .bind (.refer range numbered (by simp)) fun _ => .pure _

theorem agree_referToClass (s : Setting) (c : Cursor) (d : Definition) :
    B.Agree known (s.referToClass c d : Indexing ρ Bool) (s.referToClass c d) := by
  refine .liftBind fun name => ?_
  split
  · exact .pure _
  · refine .bindSymbol (.symbol _) fun v w => ?_
    refine .bind (.note (.symbolKind (by simp) _) rfl) fun _ => ?_
    refine .liftBind fun isQualifier => ?_
    split
    · refine .liftBind fun range => ?_
      exact .bind (.note (.qualifierLocation (by simp) _) rfl) fun _ => .pure _
    · refine .liftBind fun range => ?_
      refine .bind (.refer range (numbered_classReferenceKind c) (by simp)) fun _ => ?_
      split
      · refine .liftBind fun isCall => ?_
        split
        · refine .bindSymbol (.symbol _) fun v' w' => ?_
          refine .bind (.note (.symbolKind (by simp) _) rfl) fun _ => ?_
          refine .liftBind fun range => ?_
          exact .bind (.refer range ⟨_, rfl⟩ (by simp)) fun _ => .pure _
        · exact .pure _
      · exact .pure _

theorem agree_referToFunction (s : Setting) (c : Cursor) (d : Definition) :
    B.Agree known (s.referToFunction c d : Indexing ρ Bool) (s.referToFunction c d) := by
  refine .liftBind fun name => ?_
  split
  · exact .pure _
  · refine .bindSymbol (.symbol _) fun v w => ?_
    refine .bind (.note (.symbolKind (by simp) _) rfl) fun _ => ?_
    refine .liftBind fun isCall => ?_
    split
    · refine .liftBind fun range => ?_
      exact .bind (.refer range ⟨_, rfl⟩ (by simp)) fun _ => .pure _
    · split
      · refine .liftBind fun range => ?_
        exact .bind (.refer range ⟨_, rfl⟩ (by simp)) fun _ => .pure _
      · exact .pure _

theorem numbered_role {s : Setting} {c site : Cursor} {file : String} {role : Role}
    (h : s.role c site file = .ok role) {kind : ReferenceKind} (hk : role.reference = some kind) :
    kind.Numbered := by
  have possible := role_mem h
  simp only [possibleRoles, List.mem_cons, List.not_mem_nil, or_false] at possible
  rcases possible with rfl | rfl | rfl | rfl | rfl | rfl
  · cases hk
  · cases hk
  · obtain rfl := Option.some.inj hk
    exact numbered_orImported c ⟨_, rfl⟩
  · cases hk
  · obtain rfl := Option.some.inj hk
    exact ⟨_, rfl⟩
  · obtain rfl := Option.some.inj hk
    exact ⟨_, rfl⟩

theorem agree_referToVariable (s : Setting) (c : Cursor) (d : Definition) :
    B.Agree known (s.referToVariable c d : Indexing ρ Bool) (s.referToVariable c d) := by
  refine .liftBind fun file => ?_
  split
  · exact .pure _
  · refine .liftBind fun site => ?_
    split
    · exact .throw _
    · refine .liftBindOf fun role hrole => ?_
      refine .liftBind fun range => ?_
      split
      · refine .liftBind fun name => ?_
        split
        · exact .pure _
        · refine .bindSymbol (.symbol _) fun v w => ?_
          extract_lets finish addReference addDefinition finish' addReference' addDefinition'
          -- each join point is reached with the symbols known to correspond to each other
          have agree_reference : ∀ u,
              B.Agree ((v, w) :: known) (addReference u) (addReference' u) := by
            intro u
            unfold addReference addReference'
            split
            · exact .pure _
            · rename_i kind hkind
              exact .bind (.refer range (numbered_role hrole hkind) (by simp)) fun _ => .pure _
          have agree_definition : ∀ u,
              B.Agree ((v, w) :: known) (addDefinition u) (addDefinition' u) := by
            intro u
            unfold addDefinition addDefinition'
            split
            · refine .bind (.note (.definitionKind (by simp) _) rfl) fun _ => ?_
              exact .bind (.note (.symbolLocation (by simp) _) rfl) agree_reference
            · exact agree_reference ()
          split
          · exact agree_definition ()
          · exact .bind (.note (.symbolKind (by simp) _) rfl) agree_definition
      · refine .bindSuch (agree_localName s d) fun name nonempty => ?_
        exact .bind (.useLocal range nonempty) fun _ => .pure _

/-! ### The definitions of a name -/

section Definitions

variable (s : Setting) (c : Cursor)

theorem agree_consider {d : Definition} (named : s.IsNamelessModule d → B.nameless) :
    B.Agree known (s.consider c d : Indexing ρ Verdict) (s.consider c d) := by
  refine .liftBindOf fun kind hkind => ?_
  split
  · refine .liftBind fun unlocated => ?_
    split
    · exact .bind (agree_referToInstance c d) fun _ => .pure _
    · exact .pure _
  · exact .bind (agree_referToModule s c hkind named) fun _ => .pure _
  · refine .liftBind fun position => ?_
    refine .liftBind fun here => ?_
    split
    · exact .pure _
    · exact .bind (agree_referToClass s c d) fun _ => .pure _
  · refine .liftBind fun position => ?_
    refine .liftBind fun here => ?_
    split
    · exact .pure _
    · exact .bind (agree_referToFunction s c d) fun _ => .pure _
  · refine .liftBind fun located => ?_
    split
    · exact .bind (agree_referToLocal s c d) fun _ => .pure _
    · exact .pure _
  · refine .liftBind fun located => ?_
    split
    · exact .bind (agree_referToVariable s c d) fun _ => .pure _
    · exact .pure _
  · exact .pure _

theorem isTreeLine_faultLine (e : Fault) (name : String) (range : SourceRange) :
    isTreeLine (faultLine e name range) = false := by
  have first : BeginsOtherwise "ERROR: Encountered exception \"" := ⟨'E', by simp, by decide⟩
  exact ((((((first.append e.report).append _).append name).append _).append _).append _).isTreeLine

theorem agree_considerSafely {d : Definition} (named : s.IsNamelessModule d → B.nameless) :
    B.Agree known (s.considerSafely c d : Indexing ρ Verdict) (s.considerSafely c d) := by
  refine .tryCatch (agree_consider s c named) fun e => ?_
  refine .liftBind fun text => ?_
  refine .liftBind fun range => ?_
  exact .bind (.say (isTreeLine_faultLine e text range)) fun _ => .pure _

theorem agree_visitDefinitions (b : Bool) {ds : List (Option Definition)}
    (named : ∀ d, some d ∈ ds → s.IsNamelessModule d → B.nameless) (solved : Bool) :
    B.Agree known (s.visitDefinitions c ds solved : Indexing ρ Unit)
      ((s.withListing b).visitDefinitions c ds solved) := by
  induction ds generalizing solved with
  | nil =>
    unfold visitDefinitions
    split
    · exact .pure _
    · exact .referToUnsolved ⟨_, rfl⟩ c
  | cons d rest ih =>
    have ih := ih fun d hd => named d (List.mem_cons_of_mem _ hd)
    cases d with
    | none => exact ih solved
    | some d =>
      simp only [visitDefinitions, considerSafely, consider_withListing]
      refine .bind (agree_considerSafely s c (named d List.mem_cons_self)) fun verdict => ?_
      split
      · exact .pure _
      · exact ih true
      · exact ih solved

theorem agree_visitName (b : Bool)
    (named : ∀ d, some d ∈ s.definitionsAt c s.source.path → s.IsNamelessModule d → B.nameless) :
    B.Agree known (s.visitName c : Indexing ρ Unit) ((s.withListing b).visitName c) := by
  refine .getBind fun t u related => ?_
  rw [related.isEmpty]
  split
  · exact .pure _
  · refine .liftBind fun text => ?_
    split
    · exact .pure _
    · exact agree_visitDefinitions s c b named false

end Definitions

/-! ### Imports -/

theorem agree_checkName (s : Setting) (b : Bool) (t : Tree) :
    B.Agree known (s.checkName t : Indexing ρ Bool) ((s.withListing b).checkName t) := by
  change B.Agree known (s.checkName t : Indexing ρ Bool) (s.checkName t : Indexing σ Bool)
  unfold checkName
  split
  · refine .liftBind fun text => ?_
    refine .liftBind fun range => ?_
    exact .bind (.note (.error _ _ _) rfl) fun _ => .pure _
  · exact .pure _

mutual

theorem agree_checkImports (s : Setting) (b : Bool) : ∀ t : Tree,
    B.Agree known (s.checkImports t : Indexing ρ Bool) ((s.withListing b).checkImports t)
  | .leaf token => by
    unfold checkImports
    split
    · exact agree_checkName s b _
    iterate 7 exact .throw _
    exact .pure _
  | .node kind parts => by
    unfold checkImports
    split
    · exact agree_checkName s b _
    · exact agree_checkImportsInTurn s b parts
    · exact agree_checkImportsInTurn s b parts
    · exact .bind (agree_checkAllImports s b parts) fun _ => .pure _
    · exact .bind (agree_checkAllImports s b parts) fun _ => .pure _
    · exact .bind (agree_checkAllImports s b parts) fun _ => .pure _
    · exact .bind (agree_checkImportsToKeyword s b parts) fun _ => .pure _
    · exact .bind (agree_checkImportsToKeyword s b parts) fun _ => .pure _
    · exact .pure _

theorem agree_checkImportsInTurn (s : Setting) (b : Bool) : ∀ ts : List Tree,
    B.Agree known (s.checkImportsInTurn ts : Indexing ρ Bool)
      ((s.withListing b).checkImportsInTurn ts)
  | [] => by
    unfold checkImportsInTurn
    exact .pure _
  | t :: ts => by
    unfold checkImportsInTurn
    refine .bind (agree_checkImports s b t) fun found => ?_
    split
    · exact agree_checkImportsInTurn s b ts
    · exact .pure _

theorem agree_checkAllImports (s : Setting) (b : Bool) : ∀ ts : List Tree,
    B.Agree known (s.checkAllImports ts : Indexing ρ Unit) ((s.withListing b).checkAllImports ts)
  | [] => by
    unfold checkAllImports
    exact .pure _
  | t :: ts => by
    unfold checkAllImports
    exact .bind (agree_checkImports s b t) fun _ => agree_checkAllImports s b ts

theorem agree_checkImportsToKeyword (s : Setting) (b : Bool) : ∀ ts : List Tree,
    B.Agree known (s.checkImportsToKeyword ts : Indexing ρ Unit)
      ((s.withListing b).checkImportsToKeyword ts)
  | [] => by
    unfold checkImportsToKeyword
    exact .pure _
  | t :: ts => by
    unfold checkImportsToKeyword
    split
    · exact .pure _
    · exact .bind (agree_checkImports s b t) fun _ => agree_checkImportsToKeyword s b ts

end

/-! ### Steps -/

/-- No module that the resolver knows has to be recorded without a name of its own, unless that is
allowed. -/
def NamesModules (s : Setting) (nameless : Prop) : Prop :=
  ∀ c file d, some d ∈ s.definitionsAt c file → s.IsNamelessModule d → nameless

/-- A module is recorded without a name of its own only if the resolver does not know its name. -/
theorem IsNamelessModule.name {s : Setting} {d : Definition} (h : s.IsNamelessModule d) :
    d.name = .ok none := by
  obtain ⟨-, owner, recorded⟩ := h
  obtain ⟨r, byFile, recorded⟩ := except_bind_eq_ok.mp recorded
  cases r with
  | none =>
    obtain ⟨name, -, recorded⟩ := except_bind_eq_ok.mp recorded
    cases recorded
  | some r =>
    obtain rfl : r = .namelessMember owner := Except.ok.inj recorded
    obtain ⟨path, -, byFile⟩ := except_bind_eq_ok.mp byFile
    obtain ⟨q, -, byFile⟩ := except_bind_eq_ok.mp byFile
    cases q with
    | none => cases byFile
    | some q =>
      obtain ⟨name, known, byFile⟩ := except_bind_eq_ok.mp byFile
      cases name with
      | none => exact known
      | some name =>
        simp only at byFile
        split at byFile <;> cases byFile

theorem mem_known_of_definitionsAt {s : Setting} {c : Cursor} {file : String} {d : Definition}
    (h : some d ∈ s.definitionsAt c file) : d ∈ s.resolver.known := by
  unfold definitionsAt Resolver.definitions at h
  split at h
  · cases h
  · split at h
    · rename_i found
      obtain ⟨before, after, split, -⟩ := List.lookup_eq_some_iff.mp found
      refine List.mem_flatMap.mpr ⟨_, split ▸ List.mem_append_right _ List.mem_cons_self, ?_⟩
      exact List.mem_filterMap.mpr ⟨some d, h, rfl⟩
    · cases h

theorem namesModules_of_known {s : Setting} {nameless : Prop}
    (named : ∀ d ∈ s.resolver.known, d.kind = .ok (some "module") → d.name ≠ .ok none) :
    s.NamesModules nameless :=
  fun _ _ d known isNameless =>
    absurd isNameless.name (named d (mem_known_of_definitionsAt known) isNameless.1)

/-- What is done for a place that is no definition. -/
theorem agree_visitSelf (s : Setting) (b : Bool) (named : s.NamesModules B.nameless) (c : Cursor)
    (plain : c.tree.kind.isDefinition = false) :
    B.Agree known (s.visitSelf c : Indexing ρ Unit) ((s.withListing b).visitSelf c) := by
  unfold visitSelf
  split
  · rename_i hk
    simp [hk, NodeKind.isDefinition] at plain
  · rename_i hk
    simp [hk, NodeKind.isDefinition] at plain
  · exact .bind (agree_checkImports s b c.tree) fun _ => .pure _
  · exact .bind (agree_checkImports s b c.tree) fun _ => .pure _
  · exact agree_visitName s c b (named c _)
  · exact .visitString c
  · exact .visitErrorToken c
  · exact .pure _

/-- So two runs do the same at every step, also if only one of them lists the tree. -/
theorem agree_actions (s : Setting) (b : Bool) (named : s.NamesModules B.nameless) :
    Actions.Agree B s.actions (s.withListing b).actions where
  look := s.agree_visitSelf b named
  parameter _ := .pure ()
  opening _ c :=
    if_congr Iff.rfl (s.openingAs_withListing b _ _ c) (s.openingAs_withListing b _ _ c)

end CodeIndex.Semantic.Setting
