import CodeIndex.Proofs.ModuleNames
import Mathlib.Data.List.Infix
import Mathlib.Data.List.TakeWhile

/-!
# Normal paths

The normal form of an absolute path is one or two slashes and then components with single slashes
between them, none of which leads nowhere or upwards. `rooted` writes such a path. On its form every
operation on paths does what its name says: the directory is the path without the last component,
the extension is that of the last component, and the directories around a path are the beginnings of
its components.

## What is proved

* `normalize_eq_rooted`, `normalize_rooted` — the normal forms of absolute paths are the paths that
  `rooted` writes.
* `rooted_inj` — each of them has one list of components.
* `directory_rooted`, `join_rooted`, `dropExtension_rooted`, `componentsBelow?_rooted` — the
  operations on such paths.
* `isAbove_rooted` — the directories around such a path.
-/

namespace CodeIndex.Path

/-! ### Components -/

/-- The text can be a component of a path. -/
structure IsComponent (n : String) : Prop where
  ne_empty : n ≠ ""
  no_slash : '/' ∉ n.toList

/-- The component is one that a normal form keeps: it leads neither nowhere nor upwards. -/
structure IsProper (n : String) : Prop extends IsComponent n where
  ne_dot : n ≠ "."
  ne_dots : n ≠ ".."

theorem areComponents_iff {ns : List String} :
    AreComponents ns ↔ ns ≠ [] ∧ ∀ n ∈ ns, IsComponent n := by
  constructor
  · intro h
    exact ⟨h.ne_nil, fun n hn => ⟨h.ne_empty n hn, h.no_slash n hn⟩⟩
  · rintro ⟨ne_nil, each⟩
    exact ⟨ne_nil, fun n hn => (each n hn).ne_empty, fun n hn => (each n hn).no_slash⟩

theorem IsComponent.toList_ne_nil {n : String} (h : IsComponent n) : n.toList ≠ [] :=
  fun empty => h.ne_empty (String.toList_eq_nil_iff.mp empty)

@[simp] theorem joined_nil : joined [] = [] := rfl

@[simp] theorem joined_singleton (n : String) : joined [n] = n.toList := by simp [joined]

theorem joined_cons (n : String) {ns : List String} (h : ns ≠ []) :
    joined (n :: ns) = n.toList ++ '/' :: joined ns := by
  rw [joined, List.map_cons, List.intercalate_cons_of_ne_nil (by simpa using h), joined,
    List.append_assoc, List.singleton_append]

theorem joined_append {as bs : List String} (has : as ≠ []) (hbs : bs ≠ []) :
    joined (as ++ bs) = joined as ++ '/' :: joined bs := by
  induction as with
  | nil => exact absurd rfl has
  | cons a as ih =>
    cases as with
    | nil => rw [List.singleton_append, joined_cons a hbs, joined_singleton]
    | cons a' as =>
      rw [List.cons_append, joined_cons a (by simp), ih (by simp), joined_cons a (by simp),
        List.append_assoc, List.cons_append]

theorem splitOn_joined {ns : List String} (h : AreComponents ns) :
    (joined ns).splitOn '/' = ns.map String.toList := by
  refine List.splitOn_intercalate '/' ?_ (by simpa using h.ne_nil)
  intro c hc
  obtain ⟨n, hn, rfl⟩ := List.mem_map.mp hc
  exact h.no_slash n hn

theorem AreComponents.getLast?_joined {ns : List String} (h : AreComponents ns) :
    ∃ front x, joined ns = front ++ [x] ∧ x ≠ '/' := by
  obtain ⟨as, n, rfl⟩ := List.eq_nil_or_concat' ns |>.resolve_left h.ne_nil
  have last := (areComponents_iff.mp h).2 n (by simp)
  obtain ⟨front, x, hn⟩ := List.eq_nil_or_concat' n.toList |>.resolve_left last.toList_ne_nil
  have other : x ≠ '/' := by
    rintro rfl
    exact last.no_slash (by simp [hn])
  cases as with
  | nil => exact ⟨front, x, by simpa using hn, other⟩
  | cons a as =>
    refine ⟨joined (a :: as) ++ '/' :: front, x, ?_, other⟩
    rw [joined_append (by simp) (by simp), joined_singleton, hn, List.append_assoc,
      List.cons_append]

/-! ### Absolute paths by their components -/

/-- The slashes in front of an absolute path. -/
def lead (double : Bool) : List Char := if double then ['/', '/'] else ['/']

/-- The absolute path with the given components. A second slash may stand in front of it. -/
def rooted (double : Bool) (ns : List String) : String := String.ofList (lead double ++ joined ns)

@[simp] theorem toList_rooted (b : Bool) (ns : List String) :
    (rooted b ns).toList = lead b ++ joined ns := String.toList_ofList

theorem isAbsolute_rooted (b : Bool) (ns : List String) : isAbsolute (rooted b ns) = true := by
  cases b <;> simp [isAbsolute, lead]

theorem joined_inj {ns ms : List String} (hns : ∀ n ∈ ns, IsComponent n)
    (hms : ∀ m ∈ ms, IsComponent m) (h : joined ns = joined ms) : ns = ms := by
  by_cases no : ns = []
  · subst no
    by_contra other
    obtain ⟨x, tail, hx, -⟩ :=
      (areComponents_iff.mpr ⟨fun none => other none.symm, hms⟩).head?_joined
    rw [hx] at h
    cases h
  · have first := areComponents_iff.mpr ⟨no, hns⟩
    have second : AreComponents ms := by
      refine areComponents_iff.mpr ⟨?_, hms⟩
      rintro rfl
      obtain ⟨x, tail, hx, -⟩ := first.head?_joined
      rw [hx] at h
      cases h
    have same := splitOn_joined first
    rw [h, splitOn_joined second] at same
    exact (List.map_injective_iff.mpr fun _ _ => String.toList_inj.mp) same.symm

/-- The text of components has no other components. -/
theorem AreComponents.intercalate_inj {ns ms : List String} (hns : AreComponents ns)
    (hms : AreComponents ms) (h : String.intercalate "/" ns = String.intercalate "/" ms) :
    ns = ms := by
  rw [← String.toList_inj, toList_intercalate, toList_intercalate] at h
  exact joined_inj (areComponents_iff.mp hns).2 (areComponents_iff.mp hms).2 h

/-- An absolute path in normal form has one list of components. -/
theorem rooted_inj {b b' : Bool} {ns ms : List String} (hns : ∀ n ∈ ns, IsComponent n)
    (hms : ∀ m ∈ ms, IsComponent m) (h : rooted b ns = rooted b' ms) : b = b' ∧ ns = ms := by
  have noSlash : ∀ {ks : List String} {tail}, (∀ k ∈ ks, IsComponent k) →
      joined ks ≠ '/' :: tail := by
    intro ks tail hks begins
    have nonempty : ks ≠ [] := by
      rintro rfl
      cases begins
    obtain ⟨x, _, hx, other⟩ := (areComponents_iff.mpr ⟨nonempty, hks⟩).head?_joined
    rw [hx] at begins
    exact other (List.cons.inj begins).1
  have same : lead b ++ joined ns = lead b' ++ joined ms := by
    rw [← toList_rooted, h, toList_rooted]
  cases b <;> cases b'
  · exact ⟨rfl, joined_inj hns hms (List.cons.inj same).2⟩
  · exact absurd (List.cons.inj same).2 (noSlash hns)
  · exact absurd (List.cons.inj same).2.symm (noSlash hms)
  · exact ⟨rfl, joined_inj hns hms (List.cons.inj (List.cons.inj same).2).2⟩

/-! ### Normal forms -/

/-- A component by component normal form of an absolute path keeps proper components only. -/
theorem isProper_of_mem_resolve {done : List (List Char)} {c : List Char}
    (earlier : ∀ d ∈ done, IsProper (String.ofList d)) (noSlash : '/' ∉ c) :
    ∀ d ∈ resolve true done c, IsProper (String.ofList d) := by
  unfold resolve
  split
  · exact earlier
  · rename_i named
    split
    · cases done with
      | nil => simp
      | cons last done =>
        have notUp : last ≠ ['.', '.'] := by
          rintro rfl
          exact (earlier _ List.mem_cons_self).ne_dots rfl
        change ∀ d ∈ (if last = ['.', '.'] then _ else done), _
        rw [if_neg notUp]
        exact fun d hd => earlier d (List.mem_cons_of_mem last hd)
    · rename_i notUp
      simp only [Bool.or_eq_true, decide_eq_true_eq, not_or] at named
      refine List.forall_mem_cons.mpr ⟨⟨⟨?_, by simpa using noSlash⟩, ?_, ?_⟩, earlier⟩
      · simpa using named.1
      · exact fun dot => named.2 (by simpa using congrArg String.toList dot)
      · exact fun dots => notUp (by simpa using congrArg String.toList dots)

theorem isProper_of_mem_foldl {cs done : List (List Char)}
    (earlier : ∀ d ∈ done, IsProper (String.ofList d)) (noSlash : ∀ c ∈ cs, '/' ∉ c) :
    ∀ d ∈ cs.foldl (resolve true) done, IsProper (String.ofList d) := by
  induction cs generalizing done with
  | nil => exact earlier
  | cons c cs ih =>
    exact ih (isProper_of_mem_resolve earlier (noSlash c List.mem_cons_self))
      fun d hd => noSlash d (List.mem_cons_of_mem c hd)

/-- Proper components are kept as they are. -/
theorem foldl_resolve_proper (absolute : Bool) {ns : List String} (h : ∀ n ∈ ns, IsProper n)
    (done : List (List Char)) :
    (ns.map String.toList).foldl (resolve absolute) done =
      (ns.map String.toList).reverse ++ done := by
  induction ns generalizing done with
  | nil => rfl
  | cons n ns ih =>
    have proper := h n List.mem_cons_self
    have dot : n.toList ≠ ['.'] := fun same => proper.ne_dot (String.toList_inj.mp same)
    have dots : n.toList ≠ ['.', '.'] := fun same => proper.ne_dots (String.toList_inj.mp same)
    have kept : resolve absolute done n.toList = n.toList :: done := by
      simp [resolve, proper.ne_empty, dot, dots]
    rw [List.map_cons, List.foldl_cons, kept, ih fun m hm => h m (List.mem_cons_of_mem n hm)]
    simp

theorem leadingSlashes_of_isAbsolute {p : String} (h : isAbsolute p = true) :
    ∃ b, List.replicate (leadingSlashes p.toList) '/' = lead b ∧ 0 < leadingSlashes p.toList := by
  obtain ⟨tail, hp⟩ := List.head?_eq_some_iff.mp (by simpa [isAbsolute] using h)
  unfold leadingSlashes
  split
  · next none => simp [hp] at none
  · exact ⟨true, rfl, by omega⟩
  · exact ⟨false, rfl, by omega⟩

/-- The normal form of an absolute path is made of proper components. -/
theorem normalize_eq_rooted {p : String} (h : isAbsolute p = true) :
    ∃ b ns, (∀ n ∈ ns, IsProper n) ∧ normalize p = rooted b ns := by
  obtain ⟨b, leads, positive⟩ := leadingSlashes_of_isAbsolute h
  refine ⟨b, ((p.toList.splitOn '/').foldl (resolve true) []).reverse.map String.ofList, ?_, ?_⟩
  · intro n hn
    obtain ⟨c, hc, rfl⟩ := List.mem_map.mp hn
    have none : ∀ c ∈ ([] : List (List Char)), IsProper (String.ofList c) := by simp
    exact isProper_of_mem_foldl none (fun c hc => slash_notMem_of_mem_splitOn hc) c
      (List.mem_reverse.mp hc)
  · have absolute : decide (leadingSlashes p.toList > 0) = true := decide_eq_true positive
    have nonempty : lead b ≠ [] := by cases b <;> simp [lead]
    simp only [normalize, absolute, leads, rooted, joined]
    rw [if_neg (by simp [nonempty])]
    simp [Function.comp_def]

theorem splitOn_rooted (b : Bool) {ns : List String} (h : ∀ n ∈ ns, IsComponent n) :
    ∃ empty, (∀ c ∈ empty, c = []) ∧
      (rooted b ns).toList.splitOn '/' = empty ++ ns.map String.toList := by
  have split : ∃ empty, (∀ c ∈ empty, c = []) ∧
      (joined ns).splitOn '/' = empty ++ ns.map String.toList := by
    by_cases no : ns = []
    · subst no
      exact ⟨[[]], by simp, rfl⟩
    · exact ⟨[], by simp, splitOn_joined (areComponents_iff.mpr ⟨no, h⟩)⟩
  obtain ⟨empty, none, split⟩ := split
  cases b with
  | false =>
    refine ⟨[] :: empty, by simpa using none, ?_⟩
    rw [toList_rooted]
    change ('/' :: joined ns).splitOn '/' = _
    rw [List.splitOn_cons_eq_if_modifyHead, if_pos (by decide), split]
    rfl
  | true =>
    refine ⟨[] :: [] :: empty, by simpa using none, ?_⟩
    rw [toList_rooted]
    change ('/' :: '/' :: joined ns).splitOn '/' = _
    rw [List.splitOn_cons_eq_if_modifyHead, if_pos (by decide),
      List.splitOn_cons_eq_if_modifyHead, if_pos (by decide), split]
    rfl

theorem foldl_resolve_empty (absolute : Bool) {empty : List (List Char)} (h : ∀ c ∈ empty, c = [])
    (done : List (List Char)) : empty.foldl (resolve absolute) done = done := by
  induction empty with
  | nil => rfl
  | cons c cs ih =>
    obtain rfl := h c List.mem_cons_self
    exact ih fun d hd => h d (List.mem_cons_of_mem _ hd)

theorem leadingSlashes_rooted (b : Bool) {ns : List String} (h : ∀ n ∈ ns, IsComponent n) :
    List.replicate (leadingSlashes (rooted b ns).toList) '/' = lead b := by
  have none : (joined ns).takeWhile (· == '/') = [] := by
    by_cases no : ns = []
    · subst no
      rfl
    · obtain ⟨x, tail, hx, other⟩ := (areComponents_iff.mpr ⟨no, h⟩).head?_joined
      simp [hx, other]
  cases b <;> simp [leadingSlashes, lead, none]

/-- Proper components make up a normal form. -/
theorem normalize_rooted (b : Bool) {ns : List String} (h : ∀ n ∈ ns, IsProper n) :
    normalize (rooted b ns) = rooted b ns := by
  have components : ∀ n ∈ ns, IsComponent n := fun n hn => (h n hn).toIsComponent
  obtain ⟨empty, none, split⟩ := splitOn_rooted b components
  have nonempty : lead b ≠ [] := by cases b <;> simp [lead]
  simp only [normalize]
  rw [split, List.foldl_append, foldl_resolve_empty _ none, foldl_resolve_proper _ h,
    leadingSlashes_rooted b components, List.append_nil, List.reverse_reverse,
    if_neg (by simp [nonempty])]
  rfl

/-! ### Directories -/

/-- The beginning of the paths of what is in the directory with the components `as`. -/
def opened (b : Bool) (as : List String) : List Char :=
  if as = [] then lead b else lead b ++ joined as ++ ['/']

theorem toList_rooted_append (b : Bool) (as : List String) {bs : List String} (h : bs ≠ []) :
    (rooted b (as ++ bs)).toList = opened b as ++ joined bs := by
  by_cases no : as = []
  · simp [opened, no]
  · simp [opened, no, joined_append no h]

/-- Only the root directory ends with a slash. -/
theorem getLast?_rooted (b : Bool) {as : List String} (h : ∀ a ∈ as, IsComponent a)
    (nonempty : as ≠ []) : (rooted b as).toList.getLast? ≠ some '/' := by
  obtain ⟨front, x, hx, other⟩ := (areComponents_iff.mpr ⟨nonempty, h⟩).getLast?_joined
  rw [toList_rooted, hx, ← List.append_assoc, List.getLast?_concat]
  exact fun slash => other (Option.some.inj slash)

theorem opened_eq (b : Bool) {as : List String} (h : ∀ a ∈ as, IsComponent a) :
    opened b as = (withoutSlash (rooted b as)).toList ++ ['/'] := by
  unfold withoutSlash
  by_cases no : as = []
  · subst no
    cases b <;> simp [opened, lead]
  · rw [if_neg (getLast?_rooted b h no), opened, if_neg no, toList_rooted]

/-- A path goes on from the directory by a slash and the other components. -/
theorem rooted_append (b : Bool) {as bs : List String} (has : ∀ a ∈ as, IsComponent a)
    (hbs : bs ≠ []) :
    rooted b (as ++ bs) = withoutSlash (rooted b as) ++ "/" ++ String.intercalate "/" bs := by
  rw [← String.toList_inj, toList_rooted_append b as hbs, opened_eq b has, String.toList_append,
    String.toList_append, toList_intercalate]
  rfl

theorem reverse_rooted (b : Bool) (as : List String) (n : String) :
    (rooted b (as ++ [n])).toList.reverse = n.toList.reverse ++ (opened b as).reverse := by
  rw [toList_rooted_append b as (by simp), joined_singleton, List.reverse_append]

theorem reverse_opened (b : Bool) (as : List String) :
    ∃ rest, (opened b as).reverse = '/' :: rest := by
  unfold opened
  split
  · cases b
    · exact ⟨[], rfl⟩
    · exact ⟨['/'], rfl⟩
  · exact ⟨_, by rw [List.reverse_append]; rfl⟩

section LastComponent

variable (b : Bool) {as : List String} {n : String} (hn : IsComponent n)
include hn

theorem all_ne_slash : ∀ x ∈ n.toList.reverse, (x != '/') = true := by
  intro x hx
  have other : x ≠ '/' := by
    rintro rfl
    exact hn.no_slash (List.mem_reverse.mp hx)
  simpa using other

/-- The last component. -/
theorem takeWhile_reverse_rooted :
    (rooted b (as ++ [n])).toList.reverse.takeWhile (· != '/') = n.toList.reverse := by
  obtain ⟨rest, hrest⟩ := reverse_opened b as
  rw [reverse_rooted, List.takeWhile_append_of_pos (all_ne_slash hn), hrest]
  simp

theorem baseName_rooted : baseName (rooted b (as ++ [n])) = n := by
  rw [baseName, takeWhile_reverse_rooted b hn, List.reverse_reverse, String.ofList_toList]

/-- The directory of a path is the path without its last component. -/
theorem directory_rooted (has : ∀ a ∈ as, IsComponent a) :
    directory (rooted b (as ++ [n])) = rooted b as := by
  have head : (rooted b (as ++ [n])).toList.reverse.dropWhile (· != '/') =
      (opened b as).reverse := by
    obtain ⟨rest, hrest⟩ := reverse_opened b as
    rw [reverse_rooted, List.dropWhile_append_of_pos (all_ne_slash hn), hrest]
    simp
  simp only [directory, head]
  by_cases no : as = []
  · subst no
    cases b <;> rfl
  · obtain ⟨front, x, hx, other⟩ := (areComponents_iff.mpr ⟨no, has⟩).getLast?_joined
    have below : (opened b as).reverse = '/' :: x :: (lead b ++ front).reverse := by
      simp [opened, no, hx]
    rw [below, rooted, hx]
    simp [other]

/-- The extension of a path is that of its last component. -/
theorem dropExtension_rooted :
    dropExtension (rooted b (as ++ [n])) = rooted b (as ++ [dropExtension n]) := by
  have alone : n.toList.reverse.takeWhile (· != '/') = n.toList.reverse :=
    List.takeWhile_eq_self_iff.mpr (all_ne_slash hn)
  simp only [dropExtension, takeWhile_reverse_rooted b hn, alone]
  split
  · next extended =>
    have short : (n.toList.reverse.takeWhile (· != '.')).length + 1 ≤ n.toList.reverse.length := by
      by_contra long
      rw [List.drop_eq_nil_of_le (by omega)] at extended
      cases extended
    rw [reverse_rooted, List.drop_append_of_le_length short, List.reverse_append,
      List.reverse_reverse, ← String.toList_inj, toList_rooted_append b as (by simp)]
    simp
  · rfl

end LastComponent

theorem isComponent_dropExtension {n : String} (h : IsComponent n) :
    IsComponent (dropExtension n) := by
  unfold dropExtension
  extract_lets base extension
  split
  · next extended =>
    have alone : base = n.toList.reverse :=
      List.takeWhile_eq_self_iff.mpr (all_ne_slash h)
    rw [alone] at extended
    refine ⟨fun empty => ?_, fun slash => ?_⟩
    · have none : n.toList.reverse.drop (extension.length + 1) = [] := by
        simpa using congrArg String.toList empty
      rw [none] at extended
      cases extended
    · rw [String.toList_ofList, List.mem_reverse] at slash
      exact h.no_slash (List.mem_reverse.mp (List.mem_of_mem_drop slash))
  · exact h

/-- What stands before the extension has a character other than a dot. -/
theorem dropExtension_append {stem : String} (noSlash : '/' ∉ stem.toList)
    (named : ∃ x ∈ stem.toList, x ≠ '.') : dropExtension (stem ++ ".py") = stem := by
  have reversed : (stem ++ ".py").toList.reverse = 'y' :: 'p' :: '.' :: stem.toList.reverse := by
    rw [String.toList_append, List.reverse_append]
    rfl
  have base : (stem ++ ".py").toList.reverse.takeWhile (· != '/') =
      'y' :: 'p' :: '.' :: stem.toList.reverse := by
    rw [reversed, List.takeWhile_eq_self_iff]
    intro x hx
    simp only [List.mem_cons, List.mem_reverse] at hx
    rcases hx with rfl | rfl | rfl | hx
    · decide
    · decide
    · decide
    · have other : x ≠ '/' := by
        rintro rfl
        exact noSlash hx
      simpa using other
  have other : stem.toList.any (· != '.') = true := by
    obtain ⟨x, hx, other⟩ := named
    exact List.any_eq_true.mpr ⟨x, hx, by simpa using other⟩
  simp only [dropExtension, base]
  rw [reversed]
  simp [other]

theorem join_rooted (b : Bool) {as : List String} {n : String} (has : ∀ a ∈ as, IsComponent a)
    (hn : IsComponent n) : join (rooted b as) n = rooted b (as ++ [n]) := by
  have relative : isAbsolute n = false := by
    cases hc : n.toList with
    | nil => simp [isAbsolute, hc]
    | cons x tail =>
      have other : x ≠ '/' := by
        rintro rfl
        exact hn.no_slash (by simp [hc])
      simp [isAbsolute, hc, other]
  have nonempty : (rooted b as).isEmpty = false := by
    rw [← Bool.not_eq_true, String.isEmpty_iff]
    intro empty
    have absolute := isAbsolute_rooted b as
    rw [empty] at absolute
    cases absolute
  rw [← String.toList_inj, toList_rooted_append b as (by simp), joined_singleton, join, relative,
    nonempty]
  by_cases no : as = []
  · subst no
    cases b <;> simp [opened, lead]
  · have ends : ((rooted b as).toList.getLast? == some '/') = false :=
      beq_eq_false_iff_ne.mpr (getLast?_rooted b has no)
    rw [ends, opened, if_neg no]
    simp

/-! ### Directories around a path -/

/-- The directory `d` is around the path `p`: both are absolute and normal, and components lead from
the one to the other. -/
def IsAbove (d p : String) : Prop :=
  normalize d = d ∧ ∃ names, AreComponents names ∧
    p = withoutSlash d ++ "/" ++ String.intercalate "/" names

/-- A directory around an absolute path is absolute. -/
theorem IsAbove.isAbsolute {d p : String} (h : IsAbove d p) (absolute : isAbsolute p = true) :
    isAbsolute d = true := by
  obtain ⟨normal, names, -, rfl⟩ := h
  cases hd : d.toList with
  | nil =>
    obtain rfl := String.toList_eq_nil_iff.mp hd
    exact absurd normal (by decide)
  | cons x tail =>
    have begins : x = '/' := by
      unfold withoutSlash at absolute
      split at absolute
      · next ends =>
        cases tail with
        | nil => simpa [hd] using ends
        | cons y tail => simpa [Path.isAbsolute, hd] using absolute
      · simpa [Path.isAbsolute, hd] using absolute
    simp [Path.isAbsolute, hd, begins]

/-- The directories around a path are given by the beginnings of its components. -/
theorem isAbove_rooted (b : Bool) {ns : List String} (h : ∀ n ∈ ns, IsProper n) {d : String} :
    IsAbove d (rooted b ns) ↔ ∃ as bs, bs ≠ [] ∧ ns = as ++ bs ∧ d = rooted b as := by
  have components : ∀ n ∈ ns, IsComponent n := fun n hn => (h n hn).toIsComponent
  constructor
  · intro above
    obtain ⟨b', as, proper, hd⟩ :=
      normalize_eq_rooted (above.isAbsolute (isAbsolute_rooted b ns))
    obtain ⟨normal, names, parts, hp⟩ := above
    rw [normal] at hd
    subst hd
    have has : ∀ a ∈ as, IsComponent a := fun a ha => (proper a ha).toIsComponent
    rw [← rooted_append b' has parts.ne_nil] at hp
    obtain ⟨rfl, rfl⟩ := rooted_inj components
      (List.forall_mem_append.mpr ⟨has, (areComponents_iff.mp parts).2⟩) hp
    exact ⟨as, names, parts.ne_nil, rfl, rfl⟩
  · rintro ⟨as, bs, nonempty, rfl, rfl⟩
    obtain ⟨has, hbs⟩ := List.forall_mem_append.mp components
    exact ⟨normalize_rooted b fun a ha => h a (by simp [ha]), bs,
      areComponents_iff.mpr ⟨nonempty, hbs⟩, rooted_append b has nonempty⟩

theorem append_eq_concat {as bs cs : List String} {n : String} (nonempty : bs ≠ [])
    (h : as ++ [n] = cs ++ bs) : cs <+: as := by
  obtain ⟨front, last, rfl⟩ := (List.eq_nil_or_concat' bs).resolve_left nonempty
  rw [← List.append_assoc] at h
  exact ⟨front, (List.append_inj' h rfl).1.symm⟩

/-- The directories around the file with the last component `n`. -/
theorem isAbove_concat (b : Bool) {as : List String} {n : String}
    (h : ∀ m ∈ as ++ [n], IsProper m) {d : String} :
    IsAbove d (rooted b (as ++ [n])) ↔ ∃ cs, cs <+: as ∧ d = rooted b cs := by
  rw [isAbove_rooted b h]
  constructor
  · rintro ⟨cs, bs, nonempty, path, rfl⟩
    exact ⟨cs, append_eq_concat nonempty path, rfl⟩
  · rintro ⟨cs, ⟨bs, rfl⟩, rfl⟩
    exact ⟨cs, bs ++ [n], by simp, List.append_assoc cs bs [n], rfl⟩

/-! ### What is left below a directory -/

theorem below?_eq_none {root p : String} (h : ¬ root.toList <+: p.toList) :
    below? root p = none := by
  cases left : below? root p with
  | none => rfl
  | some rest =>
    refine absurd ?_ h
    obtain ⟨-, left | ⟨left, -⟩⟩ := below?_eq_some left
    · exact ⟨_, List.append_eq_of_isPrefixOf?_eq_some left⟩
    · exact ⟨_, List.append_eq_of_isPrefixOf?_eq_some left⟩

/-- What is left of a path below a directory around it are the other components. -/
theorem below?_rooted (b : Bool) (as : List String) {bs : List String} (h : AreComponents bs) :
    below? (rooted b as) (rooted b (as ++ bs)) = some (joined bs) := by
  obtain ⟨x, tail, hx, other⟩ := h.head?_joined
  have path := toList_rooted_append b as h.ne_nil
  by_cases no : as = []
  · refine below?_of_append ?_ (by simp [hx]) (by simpa [hx] using other)
    rw [path, opened, if_pos no, toList_rooted, no, joined_nil, List.append_nil]
  · refine below?_of_append_slash ?_ (by simp [hx])
    rw [path, opened, if_neg no, toList_rooted, List.append_assoc, List.singleton_append]

theorem componentsBelow?_of_below? {roots : List String} {p : String} {ns : List String}
    (h : AreComponents ns) (left : roots.findSome? (below? · p) = some (joined ns)) :
    componentsBelow? roots p = some ns := by
  have full : ¬ [] ∈ ns.map String.toList := by
    intro empty
    obtain ⟨n, hn, none⟩ := List.mem_map.mp empty
    exact h.ne_empty n hn (String.toList_eq_nil_iff.mp none)
  simp only [componentsBelow?, left, splitOn_joined h]
  rw [if_neg (by simpa using full)]
  simp [Function.comp_def]

/-- The components of a path below the first directory, if that is around it. -/
theorem componentsBelow?_rooted (b : Bool) (as : List String) {bs : List String}
    (h : AreComponents bs) (others : List String) :
    componentsBelow? (rooted b as :: others) (rooted b (as ++ bs)) = some bs := by
  refine componentsBelow?_of_below? h ?_
  rw [List.findSome?_cons, below?_rooted b as h]

/-- Directories with which the path does not begin do not count. -/
theorem componentsBelow?_append {others : List String} {p : String}
    (h : ∀ d ∈ others, ¬ d.toList <+: p.toList) (roots : List String) :
    componentsBelow? (others ++ roots) p = componentsBelow? roots p := by
  have none : others.findSome? (below? · p) = none :=
    List.findSome?_eq_none_iff.mpr fun d hd => below?_eq_none (h d hd)
  unfold componentsBelow?
  rw [List.findSome?_append, none, Option.none_or]

end CodeIndex.Path
