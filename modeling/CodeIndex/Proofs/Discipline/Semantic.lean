import CodeIndex.Proofs.Discipline
import CodeIndex.Semantic.Visit

/-!
# The semantic indexer keeps to the discipline

Whatever the semantic indexer does for a place that is no definition keeps to every discipline of
recording, for every resolver. A fault that is caught while one definition of a name is looked at
makes no difference: what had been recorded kept to the discipline, and what follows does.
-/

namespace CodeIndex.Semantic.Setting

open Indexing Discipline

variable {ρ : Type} [Recorder ρ] {D : Discipline ρ} {known : List Value}

/-! ### Symbols -/

/-- A module is recorded as a symbol, though it may lack a name of its own. -/
theorem recordingOfModule_isSymbol {s : Setting} {d : Definition} {r : Recording}
    (h : s.recordingOfModule d = .ok r) : (∃ q, r = .symbol q) ∨ ∃ q, r = .namelessMember q := by
  obtain ⟨byFile, hb, h⟩ := except_bind_eq_ok.mp h
  cases byFile with
  | none =>
    obtain ⟨full, -, h⟩ := except_bind_eq_ok.mp h
    exact .inl ⟨full, (Except.ok.inj h).symm⟩
  | some recording =>
    obtain rfl := Except.ok.inj h
    obtain ⟨path, -, hb⟩ := except_bind_eq_ok.mp hb
    obtain ⟨q, -, hb⟩ := except_bind_eq_ok.mp hb
    cases q with
    | none => cases hb
    | some q =>
      obtain ⟨name, -, hb⟩ := except_bind_eq_ok.mp hb
      cases name with
      | none => exact .inr ⟨q, (Option.some.inj (Except.ok.inj hb)).symm⟩
      | some name =>
        dsimp only at hb
        split at hb <;> exact .inl ⟨_, (Option.some.inj (Except.ok.inj hb)).symm⟩

theorem moves_emitModule {s : Setting} {d : Definition} {r : Recording}
    (h : s.recordingOfModule d = .ok r) :
    D.Moves known (emit r : Indexing ρ Value) (fun v => [v]) := by
  rcases recordingOfModule_isSymbol h with ⟨q, rfl⟩ | ⟨q, rfl⟩
  · exact .symbol q
  · exact .emitSymbol (fun _ => trivial) fun _ _ h => h

/-! ### Local variables -/

theorem moves_localName (s : Setting) (d : Definition) :
    D.Moves known (s.localName d : Indexing ρ String) := by
  unfold localName
  refine .liftBind fun site => ?_
  refine .liftBind fun file => ?_
  extract_lets function write complete
  have moves_write : ∀ owner, D.Moves known (write owner : Indexing ρ String) := by
    intro owner
    unfold write
    split
    · exact .throw _
    · exact .liftBind fun _ => .pure _
  have moves_complete : ∀ owner, D.Moves known (complete owner : Indexing ρ String) := by
    intro owner
    unfold complete
    split
    · exact .bind .context fun top => .bind (.pure _) moves_write
    · exact .bind (.pure _) moves_write
  clear_value function complete
  split
  · exact .bind (.pure _) moves_complete
  · refine .liftBind fun name => ?_
    split
    · exact .bind (.pure _) moves_complete
    · refine .liftBind fun q => ?_
      split <;> exact .bind (.pure _) moves_complete

theorem moves_referToLocal (s : Setting) (c : Cursor) (d : Definition) :
    D.Moves known (s.referToLocal c d : Indexing ρ Bool) := by
  refine .bind (moves_localName s d) fun name => ?_
  refine .liftBind fun range => ?_
  exact .bind (.useLocal _ _) fun _ => .pure _

/-- What a name for a variable can be. -/
def possibleRoles (c : Cursor) : List Role :=
  [{}, { symbol := some .globalVariable, defines := true },
    { symbol := some .globalVariable, reference := some (orImported c .usage) },
    { symbol := some .field, defines := true }, { reference := some .usage },
    { symbol := some .field, defines := true, reference := some .usage }]

theorem role_mem {s : Setting} {c site : Cursor} {file : String} {role : Role}
    (h : s.role c site file = .ok role) : role ∈ possibleRoles c := by
  have ofRange : ∀ {there : Except Fault Bool} {yes no : Role},
      (do if ← there then return yes else return no) = .ok role → role = yes ∨ role = no := by
    intro there yes no h
    obtain ⟨b, -, h⟩ := except_bind_eq_ok.mp h
    cases b <;> cases h
    · exact .inr rfl
    · exact .inl rfl
  have empty : (.ok {} : Except Fault Role) = .ok role → role ∈ possibleRoles c := by
    rintro ⟨⟩
    simp [possibleRoles]
  unfold Setting.role at h
  split at h
  · rcases ofRange h with rfl | rfl <;> simp [possibleRoles]
  · split at h
    · unfold fieldRole at h
      split at h
      · rcases ofRange h with rfl | rfl <;> simp [possibleRoles]
      · exact empty h
    · unfold attributeRole at h
      split at h
      · split at h
        · exact empty h
        · obtain ⟨owner, -, h⟩ := except_bind_eq_ok.mp h
          cases owner with
          | none => exact empty h
          | some owner => rcases ofRange h with rfl | rfl <;> simp [possibleRoles]
      · exact empty h

/-! ### Names -/

section Names

variable (allowed : D.AllowsReferences)
include allowed

theorem moves_referToInstance (c : Cursor) (d : Definition) :
    D.Moves known (referToInstance c d : Indexing ρ Bool) := by
  refine .liftBind fun name => ?_
  refine .bind (.symbol _) fun v => ?_
  refine .bind (.note fun s h => h v (by simp)) fun _ => ?_
  refine .liftBind fun range => ?_
  exact .bind (.refer allowed _ _ (by simp)) fun _ => .pure _

theorem moves_referToModule (s : Setting) (c : Cursor) (d : Definition) :
    D.Moves known (s.referToModule c d : Indexing ρ Bool) := by
  refine .liftBindOf fun r hr => ?_
  refine .bind (moves_emitModule hr) fun v => ?_
  refine .bind (.note fun s h => h v (by simp)) fun _ => ?_
  refine .liftBind fun isQualifier => ?_
  split
  · refine .liftBind fun range => ?_
    exact .bind (.note fun s h => h v (by simp)) fun _ => .pure _
  · refine .liftBind fun range => ?_
    exact .bind (.refer allowed _ _ (by simp)) fun _ => .pure _

theorem moves_referToClass (s : Setting) (c : Cursor) (d : Definition) :
    D.Moves known (s.referToClass c d : Indexing ρ Bool) := by
  refine .liftBind fun name => ?_
  split
  · exact .pure _
  · refine .bind (.symbol _) fun v => ?_
    refine .bind (.note fun s h => h v (by simp)) fun _ => ?_
    refine .liftBind fun isQualifier => ?_
    split
    · refine .liftBind fun range => ?_
      exact .bind (.note fun s h => h v (by simp)) fun _ => .pure _
    · refine .liftBind fun range => ?_
      refine .bind (.refer allowed _ _ (by simp)) fun _ => ?_
      split
      · refine .liftBind fun isCall => ?_
        split
        · refine .bind (.symbol _) fun w => ?_
          refine .bind (.note fun s h => h w (by simp)) fun _ => ?_
          refine .liftBind fun range => ?_
          exact .bind (.refer allowed _ _ (by simp)) fun _ => .pure _
        · exact .pure _
      · exact .pure _

theorem moves_referToFunction (s : Setting) (c : Cursor) (d : Definition) :
    D.Moves known (s.referToFunction c d : Indexing ρ Bool) := by
  refine .liftBind fun name => ?_
  split
  · exact .pure _
  · refine .bind (.symbol _) fun v => ?_
    refine .bind (.note fun s h => h v (by simp)) fun _ => ?_
    refine .liftBind fun isCall => ?_
    split
    · refine .liftBind fun range => ?_
      exact .bind (.refer allowed _ _ (by simp)) fun _ => .pure _
    · split
      · refine .liftBind fun range => ?_
        exact .bind (.refer allowed _ _ (by simp)) fun _ => .pure _
      · exact .pure _

theorem moves_referToVariable (s : Setting) (c : Cursor) (d : Definition) :
    D.Moves known (s.referToVariable c d : Indexing ρ Bool) := by
  refine .liftBind fun file => ?_
  split
  · exact .pure _
  · refine .liftBind fun site => ?_
    split
    · exact .throw _
    · refine .liftBind fun role => ?_
      refine .liftBind fun range => ?_
      split
      · refine .liftBind fun name => ?_
        split
        · exact .pure _
        · refine .bind (.symbol _) fun v => ?_
          extract_lets finish addReference addDefinition
          -- each join point is reached with the symbol known
          have moves_reference : ∀ u,
              D.Moves ([v] ++ known) (addReference u : Indexing ρ Bool) := by
            intro u
            unfold addReference
            split
            · exact .pure _
            · exact .bind (.refer allowed _ _ (by simp)) fun _ => .pure _
          have moves_definition :
              ∀ u, D.Moves ([v] ++ known) (addDefinition u : Indexing ρ Bool) := by
            intro u
            unfold addDefinition
            split
            · refine .bind (.note fun s h => h v (by simp)) fun _ => ?_
              exact .bind (.note fun s h => h v (by simp)) moves_reference
            · exact moves_reference ()
          split
          · exact moves_definition ()
          · exact .bind (.note fun s h => h v (by simp)) moves_definition
      · refine .bind (moves_localName s d) fun name => ?_
        exact .bind (.useLocal _ _) fun _ => .pure _

theorem moves_consider (s : Setting) (c : Cursor) (d : Definition) :
    D.Moves known (s.consider c d : Indexing ρ Verdict) := by
  refine .liftBind fun kind => ?_
  split
  · refine .liftBind fun unlocated => ?_
    split
    · exact .bind (moves_referToInstance allowed c d) fun _ => .pure _
    · exact .pure _
  · exact .bind (moves_referToModule allowed s c d) fun _ => .pure _
  · refine .liftBind fun position => ?_
    refine .liftBind fun here => ?_
    split
    · exact .pure _
    · exact .bind (moves_referToClass allowed s c d) fun _ => .pure _
  · refine .liftBind fun position => ?_
    refine .liftBind fun here => ?_
    split
    · exact .pure _
    · exact .bind (moves_referToFunction allowed s c d) fun _ => .pure _
  · refine .liftBind fun located => ?_
    split
    · exact .bind (moves_referToLocal s c d) fun _ => .pure _
    · exact .pure _
  · refine .liftBind fun located => ?_
    split
    · exact .bind (moves_referToVariable allowed s c d) fun _ => .pure _
    · exact .pure _
  · exact .pure _

theorem moves_considerSafely (s : Setting) (c : Cursor) (d : Definition) :
    D.Moves known (s.considerSafely c d : Indexing ρ Verdict) := by
  refine .tryCatch (moves_consider allowed s c d) fun e => ?_
  refine .liftBind fun text => ?_
  refine .liftBind fun range => ?_
  exact .bind (.say _) fun _ => .pure _

theorem moves_visitDefinitions (s : Setting) (c : Cursor) (ds : List (Option Definition))
    (solved : Bool) : D.Moves known (s.visitDefinitions c ds solved : Indexing ρ Unit) := by
  induction ds generalizing solved with
  | nil =>
    unfold visitDefinitions
    split
    · exact .pure _
    · exact .referToUnsolved allowed _ _
  | cons d rest ih =>
    cases d with
    | none => exact ih solved
    | some d =>
      refine .bind (moves_considerSafely allowed s c d) fun verdict => ?_
      split
      · exact .pure _
      · exact ih true
      · exact ih solved

end Names

/-- A name that is no token has no text, so the visit ends before a reference is made. -/
theorem moves_visitName (s : Setting) (c : Cursor)
    (allowed : c.tree.isLeaf = true → D.AllowsReferences) :
    D.Moves known (s.visitName c : Indexing ρ Unit) := by
  refine .bind .get fun _ => ?_
  split
  · exact .pure _
  · refine .liftBindOf fun text ht => ?_
    split
    · exact .pure _
    · exact moves_visitDefinitions (allowed (Tree.isLeaf_of_text ht)) s c _ false

/-! ### Imports -/

theorem moves_checkName (s : Setting) (t : Tree) :
    D.Moves known (s.checkName t : Indexing ρ Bool) := by
  unfold checkName
  split
  · refine .liftBind fun text => ?_
    refine .liftBind fun range => ?_
    exact .bind (.note fun _ _ => trivial) fun _ => .pure _
  · exact .pure _

mutual

theorem moves_checkImports (s : Setting) :
    ∀ t : Tree, D.Moves known (s.checkImports t : Indexing ρ Bool)
  | .leaf token => by
    unfold checkImports
    split
    · exact moves_checkName s _
    iterate 7 exact .throw _
    exact .pure _
  | .node kind parts => by
    unfold checkImports
    split
    · exact moves_checkName s _
    · exact moves_checkImportsInTurn s parts
    · exact moves_checkImportsInTurn s parts
    · exact .bind (moves_checkAllImports s parts) fun _ => .pure _
    · exact .bind (moves_checkAllImports s parts) fun _ => .pure _
    · exact .bind (moves_checkAllImports s parts) fun _ => .pure _
    · exact .bind (moves_checkImportsToKeyword s parts) fun _ => .pure _
    · exact .bind (moves_checkImportsToKeyword s parts) fun _ => .pure _
    · exact .pure _

theorem moves_checkImportsInTurn (s : Setting) :
    ∀ ts : List Tree, D.Moves known (s.checkImportsInTurn ts : Indexing ρ Bool)
  | [] => by
    unfold checkImportsInTurn
    exact .pure _
  | t :: ts => by
    unfold checkImportsInTurn
    refine .bind (moves_checkImports s t) fun found => ?_
    split
    · exact moves_checkImportsInTurn s ts
    · exact .pure _

theorem moves_checkAllImports (s : Setting) :
    ∀ ts : List Tree, D.Moves known (s.checkAllImports ts : Indexing ρ Unit)
  | [] => by
    unfold checkAllImports
    exact .pure _
  | t :: ts => by
    unfold checkAllImports
    exact .bind (moves_checkImports s t) fun _ => moves_checkAllImports s ts

theorem moves_checkImportsToKeyword (s : Setting) :
    ∀ ts : List Tree, D.Moves known (s.checkImportsToKeyword ts : Indexing ρ Unit)
  | [] => by
    unfold checkImportsToKeyword
    exact .pure _
  | t :: ts => by
    unfold checkImportsToKeyword
    split
    · exact .pure _
    · exact .bind (moves_checkImports s t) fun _ => moves_checkImportsToKeyword s ts

end

/-- What is done for a place that is no definition. -/
theorem moves_visitSelf (s : Setting) (c : Cursor) (hc : c.tree.kind.isDefinition = false)
    (allowed : c.isName = true → c.tree.isLeaf = true → D.AllowsReferences) :
    D.Moves known (s.visitSelf c : Indexing ρ Unit) := by
  unfold visitSelf
  split
  · rename_i hk
    simp [hk, NodeKind.isDefinition] at hc
  · rename_i hk
    simp [hk, NodeKind.isDefinition] at hc
  · exact .bind (moves_checkImports s c.tree) fun _ => .pure _
  · exact .bind (moves_checkImports s c.tree) fun _ => .pure _
  · rename_i hk
    exact moves_visitName s c (allowed (by simp [Cursor.isName, Tree.isName, Tree.isKind, hk]))
  · exact .visitString c
  · exact .visitErrorToken c
  · exact .pure _

end CodeIndex.Semantic.Setting
