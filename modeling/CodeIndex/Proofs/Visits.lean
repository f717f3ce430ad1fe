import CodeIndex.Proofs.Reached

/-!
# Visits

Every place that an indexer comes to is visited: the visit begins where the place is listed, and
whatever is done for the place and below it is done before the visit ends. So visits are nested, and
the visits that have begun and not ended when another one begins are those of constructs around its
place. `Bracketed` is the grammar of such lists of steps.

## What is proved

* `Semantic.Setting.visits_steps` — the semantic indexer visits every place in document order, below
  the visits of all constructs around it.
* `Syntactic.bracketed_root`, `Syntactic.visits_steps` — the syntactic indexer visits places that it
  reaches, below visits of constructs around them. If all definitions of the tree are complete, it
  visits every place that it reaches once, below the visits of all reached constructs around it.
-/

namespace CodeIndex

/-- A visit of a place. -/
structure Visit where
  /-- The place. -/
  place : Cursor
  /-- The places whose visits had begun and not ended, the innermost first. -/
  around : List Cursor

/-- The visits that begin at the steps, when those of the places `around` have begun. -/
def visitsFrom (around : List Cursor) : List Step → List Visit
  | [] => []
  | .list c :: xs => ⟨c, around⟩ :: visitsFrom (c :: around) xs
  | .unlist :: xs => visitsFrom around.tail xs
  | _ :: xs => visitsFrom around xs

/-- The step begins or ends a visit. -/
def Step.isBracket : Step → Bool
  | .list _ | .unlist => true
  | _ => false

theorem visitsFrom_other {x : Step} (h : x.isBracket = false) (around : List Cursor)
    (xs : List Step) : visitsFrom around (x :: xs) = visitsFrom around xs := by
  cases x with
  | list | unlist => cases h
  | _ => rfl

/-- The places of the visits are those that are listed. -/
theorem map_place_visitsFrom (around : List Cursor) (xs : List Step) :
    (visitsFrom around xs).map Visit.place = placesIn Step.listed? xs := by
  induction xs generalizing around with
  | nil => rfl
  | cons x xs ih =>
    rw [placesIn_cons]
    cases x with
    | list c => simp [visitsFrom, ih, Step.listed?]
    | _ => simp [visitsFrom, ih, Step.listed?]

/-- Lists of steps that begin and end inside the visits of the places `around`, and inside of which
visits are nested. Every visit of a place stands to the visits around it as `R` says. -/
inductive Bracketed (R : List Cursor → Cursor → Prop) : List Cursor → List Step → Prop where
  | nil {around} : Bracketed R around []
  | append {around xs ys} :
      Bracketed R around xs → Bracketed R around ys → Bracketed R around (xs ++ ys)
  | other {around} {x : Step} (h : x.isBracket = false) : Bracketed R around [x]
  | visit {around xs} (c : Cursor) (holds : R around c) (inside : Bracketed R (c :: around) xs) :
      Bracketed R around (.list c :: (xs ++ [.unlist]))

namespace Bracketed

variable {R : List Cursor → Cursor → Prop} {around : List Cursor}

theorem cons {x : Step} {xs : List Step} (hx : x.isBracket = false) (hxs : Bracketed R around xs) :
    Bracketed R around (x :: xs) := .append (.other hx) hxs

theorem attempt {α : Type} {x : Except Fault α} {steps : α → List Step}
    (h : ∀ a, x = .ok a → Bracketed R around (steps a)) :
    Bracketed R around (CodeIndex.attempt x steps) := by
  cases x with
  | ok a => exact h a rfl
  | error e => exact .other rfl

theorem flatMap {α : Type} {as : List α} {f : α → List Step}
    (h : ∀ a ∈ as, Bracketed R around (f a)) : Bracketed R around (as.flatMap f) := by
  induction as with
  | nil => exact .nil
  | cons a as ih =>
    rw [List.flatMap_cons]
    exact .append (h a List.mem_cons_self) (ih fun b hb => h b (List.mem_cons_of_mem _ hb))

/-- What follows such steps takes place inside the same visits. -/
theorem visitsFrom_append {xs : List Step} (h : Bracketed R around xs) (ys : List Step) :
    visitsFrom around (xs ++ ys) = visitsFrom around xs ++ visitsFrom around ys := by
  induction h generalizing ys with
  | nil => rfl
  | append _ _ hxs hys => rw [List.append_assoc, hxs, hys, hxs, List.append_assoc]
  | other h => rw [List.singleton_append, visitsFrom_other h, visitsFrom_other h]; rfl
  | visit c _ _ ih =>
    rw [List.cons_append, List.append_assoc, List.singleton_append, visitsFrom, visitsFrom, ih, ih]
    simp [visitsFrom]

theorem holds_of_mem {xs : List Step} (h : Bracketed R around xs) :
    ∀ v ∈ visitsFrom around xs, R v.around v.place := by
  induction h with
  | nil => simp [visitsFrom]
  | append hxs _ ihx ihy =>
    intro v hv
    rw [hxs.visitsFrom_append, List.mem_append] at hv
    exact hv.elim (ihx v) (ihy v)
  | other h => simp [visitsFrom_other h, visitsFrom]
  | visit c holds inside ih =>
    intro v hv
    rw [visitsFrom, inside.visitsFrom_append] at hv
    rcases List.mem_cons.mp hv with rfl | hv
    · exact holds
    · exact ih v (by simpa [visitsFrom] using hv)

end Bracketed

/-! ### The semantic indexer -/

namespace Semantic.Setting

theorem bracketed_steps (t : Tree) (above : List Ancestor) :
    Bracketed (fun around c => around = c.ancestors) (Cursor.ancestorsAmong above)
      (steps above t) := by
  have ofClosing : ∀ around c, Bracketed (fun around c => around = c.ancestors) around
      (closing c) := by
    intro around c
    unfold closing
    split
    iterate 5 exact .other rfl
    exact .nil
  induction t using Tree.parts_induction generalizing above with
  | leaf token =>
    unfold steps
    refine .visit _ rfl ?_
    split
    · exact .other rfl
    · exact .cons rfl (ofClosing _ _)
  | node kind parts ih =>
    have inside : Bracketed (fun around c => around = c.ancestors)
        (⟨.node kind parts, above⟩ :: Cursor.ancestorsAmong above)
        (partSteps (fun i => ⟨kind, parts, i⟩ :: above) 0 parts) := by
      rw [partSteps_eq]
      refine .flatMap fun p hp => ?_
      exact ih p.1 (List.fst_mem_of_mem_zipIdx hp) (⟨kind, parts, p.2⟩ :: above)
    unfold steps
    refine .visit _ rfl ?_
    split
    · exact .cons rfl (.append inside (.other rfl))
    · exact .cons rfl (.append inside (ofClosing _ _))

/-- The visits of the semantic indexer. -/
theorem visits_steps (t : Tree) :
    visitsFrom [] (steps [] t) = t.places.map fun c => ⟨c, c.ancestors⟩ := by
  have around := (bracketed_steps t []).holds_of_mem
  have places := map_place_visitsFrom [] (steps [] t)
  rw [listed_steps t []] at places
  rw [Tree.places, ← places, List.map_map]
  conv_lhs => rw [← List.map_id (visitsFrom [] (steps [] t))]
  refine List.map_congr_left fun v hv => ?_
  change v = ⟨v.place, v.place.ancestors⟩
  rw [← around v hv]

end Semantic.Setting

/-! ### The syntactic indexer -/

namespace Syntactic

/-- The relation between a place and the visits around it is handed on from a construct to those of
its parts that are reached, and from a function to its parameters. -/
structure Inherited (R : List Cursor → Cursor → Prop) : Prop where
  part : ∀ {around kind parts above i t}, R around ⟨.node kind parts, above⟩ → parts[i]? = some t →
    selects kind parts i = true →
      R (⟨.node kind parts, above⟩ :: around) ⟨t, ⟨kind, parts, i⟩ :: above⟩
  parameter : ∀ {around kind parts f above i t}, f.kind = .funcdef → f.index = 2 →
    R around ⟨f.tree, above⟩ → f.children[f.index]? = some (.node kind parts) →
    parts[i]? = some t → parts[i]?.any (Tree.isKind .param) = true →
      R (⟨f.tree, above⟩ :: around) ⟨t, ⟨kind, parts, i⟩ :: f :: above⟩

/-- A place of the tree `root` is reached, and the visits `around` it are those of constructs around
it; of all those that are reached, if the definitions of the tree are complete. -/
structure Around (root : Tree) (around : List Cursor) (c : Cursor) : Prop where
  within : (Cursor.root root).Within c
  reached : isReached c = true
  ancestors : around.Sublist c.ancestors
  complete : DefinitionsComplete root → around = c.ancestors.filter isReached

theorem inherited_around (root : Tree) : Inherited (Around root) where
  part {around kind parts above i t} h ht selected := by
    refine ⟨.part h.within ht, ?_, h.ancestors.cons_cons _, fun complete => ?_⟩
    · have reached : reachedBelow above = true := h.reached
      simp [isReached, reachedBelow_cons, reached, selected]
    · rw [h.complete complete]
      exact (List.filter_cons_of_pos h.reached).symm
  parameter {around kind parts f above i t} function third h hparts ht isParameter := by
    have within : (Cursor.root root).Within ⟨.node kind parts, f :: above⟩ := .part h.within hparts
    refine ⟨.part within ht, ?_, (h.ancestors.cons_cons _).cons _, fun complete => ?_⟩
    · have reached : reachedBelow above = true := h.reached
      simp [isReached, reachedBelow_cons, isParameterBelow, isParameterOf, function, third, reached,
        isParameter]
    · -- the list of the parameters is not visited itself
      have passed : ¬isReached ⟨.node kind parts, f :: above⟩ = true := by
        simp [isReached, reachedBelow_third complete within function third h.reached]
      change _ = List.filter isReached (⟨.node kind parts, f :: above⟩ :: ⟨f.tree, above⟩ ::
        Cursor.ancestorsAmong above)
      rw [List.filter_cons_of_neg passed, List.filter_cons_of_pos h.reached, h.complete complete]
      rfl

section Parts

variable {R : List Cursor → Cursor → Prop} {around : List Cursor} {ts : List Tree}
  {place : Nat → List Ancestor} {i : Nat}

theorem bracketed_partSteps {selected : Nat → Bool}
    (h : ∀ j t, ts[j]? = some t → selected j = true → Bracketed R around (steps (place j) t)) :
    Bracketed R around (partSteps place selected 0 ts) := by
  rw [partSteps_eq]
  refine .flatMap fun p hp => ?_
  split
  · rename_i hsel
    exact h p.2 p.1 (List.mem_zipIdx_iff_getElem?.mp hp) hsel
  · exact .nil

theorem bracketed_importSteps (c : Cursor) (imposed : Bool)
    (h : ∀ j t, ts[j]? = some t → Bracketed R around (steps (place (i + j)) t)) :
    Bracketed R around (importSteps place c imposed i ts) := by
  induction ts generalizing i imposed with
  | nil => cases imposed with
    | true => exact .other rfl
    | false => exact .nil
  | cons t ts ih =>
    unfold importSteps
    refine .append (.append (h 0 t rfl) (.attempt fun begins _ => ?_)) (ih _ fun j u hu => ?_)
    · split
      · exact .other rfl
      · exact .nil
    · rw [show i + 1 + j = i + (j + 1) by omega]
      exact h (j + 1) u hu

theorem bracketed_aliasSteps
    (h : ∀ j t, ts[j]? = some t → Bracketed R around (steps (place (i + j)) t)) :
    Bracketed R around (aliasSteps place i ts) := by
  induction ts generalizing i with
  | nil => exact .nil
  | cons t ts ih =>
    unfold aliasSteps
    refine .append (.append (h 0 t rfl) (.attempt fun begins _ => ?_)) (ih fun j u hu => ?_)
    · split
      · exact .other rfl
      · exact .nil
    · rw [show i + 1 + j = i + (j + 1) by omega]
      exact h (j + 1) u hu

theorem bracketed_closing (c : Cursor) : Bracketed R around (closing c) := by
  unfold closing
  split
  iterate 3 exact .other rfl
  exact .nil

end Parts

/-- The visits of a construct and its parts. The second part is about a tree that holds the
parameters of a function. -/
theorem bracketed_steps {R : List Cursor → Cursor → Prop} (inherited : Inherited R) (t : Tree) :
    (∀ above around, R around ⟨t, above⟩ → Bracketed R around (steps above t)) ∧
    ∀ f above around, f.kind = .funcdef → f.index = 2 → R around ⟨f.tree, above⟩ →
      f.children[f.index]? = some t →
        Bracketed R (⟨f.tree, above⟩ :: around) (parameterStepsOf (f :: above) t) := by
  induction t using Tree.parts_induction with
  | leaf token =>
    refine ⟨fun above around here => ?_, fun f above around _ _ _ _ => .nil⟩
    unfold steps tokenSteps
    refine .visit _ here ?_
    split
    iterate 7 exact .other rfl
    exact .cons rfl (bracketed_closing _)
  | node kind parts ih =>
    refine ⟨fun above around here => ?_, fun f above around function third here hparts => ?_⟩
    · have part : ∀ j t, parts[j]? = some t → selects kind parts j = true →
          Bracketed R (⟨.node kind parts, above⟩ :: around)
            (steps (⟨kind, parts, j⟩ :: above) t) :=
        fun j t ht selected =>
          (ih t (List.mem_of_getElem? ht)).1 _ _ (inherited.part here ht selected)
      unfold steps
      refine .visit _ here ?_
      split
      · -- a class
        refine .cons rfl (.append (.append ?_ ?_) (.other rfl))
        · refine .attempt fun bases hbases => ?_
          cases bases with
          | none => exact .nil
          | some i =>
            refine .attempt fun c _ => .cons rfl (.append ?_ (.other rfl))
            refine bracketed_partSteps fun j t ht selected => part j t ht ?_
            simp [selects, hbases, of_decide_eq_true selected]
        · refine .attempt fun body hbody => ?_
          refine bracketed_partSteps fun j t ht selected => part j t ht ?_
          simp [selects, of_decide_eq_true selected, body_of_bodyIndex hbody]
      · -- a function
        refine .cons rfl (.append (.append ?_ ?_) (.other rfl))
        · refine .attempt fun _ _ => ?_
          rw [parameterSteps_eq]
          refine .flatMap fun p hp => ?_
          split
          · rename_i third
            have hp := List.mem_zipIdx_iff_getElem?.mp hp
            exact (ih p.1 (List.mem_of_getElem? hp)).2 ⟨.funcdef, parts, p.2⟩ above around rfl third
              here hp
          · exact .nil
        · refine .attempt fun body hbody => ?_
          refine bracketed_partSteps fun j t ht selected => part j t ht ?_
          rw [selects_function hbody, selected]
      · -- a parameter
        refine .cons rfl (.append (.attempt fun default hdefault => ?_) (.other rfl))
        cases default with
        | none => exact .nil
        | some i =>
          refine bracketed_partSteps fun j t ht selected => part j t ht ?_
          simp [selects, hdefault, of_decide_eq_true selected]
      · -- an argument
        refine .attempt fun first hfirst => ?_
        refine bracketed_partSteps fun j t ht selected => part j t ht ?_
        rw [selects_argument hfirst, selected]
      · -- a `from … import` statement
        refine bracketed_importSteps _ _ fun j t ht => ?_
        rw [Nat.zero_add]
        exact part j t ht rfl
      iterate 2
        · -- an import with an alias
          refine .cons rfl (.append (bracketed_aliasSteps fun j t ht => ?_) (.other rfl))
          rw [Nat.zero_add]
          exact part j t ht rfl
      · -- an `import` statement
        refine .cons rfl (.append (bracketed_partSteps fun j t ht _ => ?_) (.other rfl))
        exact part j t ht rfl
      · -- anything else
        refine .cons rfl (.append (bracketed_partSteps fun j t ht _ => ?_) (bracketed_closing _))
        exact part j t ht (by simp [selects])
    · unfold parameterStepsOf
      refine bracketed_partSteps fun j t ht isParameter => ?_
      exact (ih t (List.mem_of_getElem? ht)).1 _ _
        (inherited.parameter function third here hparts ht isParameter)

/-- The visits of the syntactic indexer are those of places that it reaches, each inside of visits
of constructs around it. -/
theorem bracketed_root (t : Tree) : Bracketed (Around t) [] (steps [] t) :=
  (bracketed_steps (inherited_around t) t).1 [] [] ⟨.here, rfl, List.nil_sublist _, fun _ => rfl⟩

/-- The visits of the syntactic indexer where all definitions are complete. -/
theorem visits_steps {t : Tree} (complete : DefinitionsComplete t)
    (faultless : Faultless (steps [] t)) :
    visitsFrom [] (steps [] t) = (reached t).map fun c => ⟨c, c.ancestors.filter isReached⟩ := by
  have around := (bracketed_root t).holds_of_mem
  rw [← listed_steps_root complete faultless, ← map_place_visitsFrom [] (steps [] t), List.map_map]
  conv_lhs => rw [← List.map_id (visitsFrom [] (steps [] t))]
  refine List.map_congr_left fun v hv => ?_
  change v = ⟨v.place, v.place.ancestors.filter isReached⟩
  rw [← (around v hv).complete complete]

end Syntactic

end CodeIndex
