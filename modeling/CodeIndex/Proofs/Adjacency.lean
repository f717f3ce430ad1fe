import CodeIndex.Proofs.Grammar

/-!
# What may stand side by side

In a word of a regular expression only certain symbols can come first, come last, or stand side by
side, and these can be read off the expression. For the forms of the grammar this says where a name
can stand in front of an opening bracket: before the arguments of a call, before those of a
decorator, and where a class or a function gets its name.

## What is proved

* `Form.mem_heads`, `Form.mem_lasts`, `Form.mem_pairs` — the symbols that are read off an expression
  are all there are.
* `Derives.opens`, `Derives.endsInName` — what a tree begins or ends with is foreseen by its symbol.
* `Admitted.meets` — where a name stands in front of an opening bracket.
* `Admitted.trailer`, `Admitted.classdef_fifth` — parts of trailers and classes.
-/

namespace CodeIndex.Grammar

/-! ### Ends and neighbours in a word -/

namespace Form

section Words

variable {α : Type} [DecidableEq α]

/-- What a word of the form may begin with. -/
def heads : RegularExpression α → List α
  | .zero | .epsilon => []
  | .char a => [a]
  | .plus f g => heads f ++ heads g
  | .comp f g => heads f ++ if f.matchEpsilon then heads g else []
  | .star f => heads f

/-- What a word of the form may end with. -/
def lasts : RegularExpression α → List α
  | .zero | .epsilon => []
  | .char a => [a]
  | .plus f g => lasts f ++ lasts g
  | .comp f g => (if g.matchEpsilon then lasts f else []) ++ lasts g
  | .star f => lasts f

/-- What may stand side by side in a word of the form. -/
def pairs : RegularExpression α → List (α × α)
  | .zero | .epsilon | .char _ => []
  | .plus f g => pairs f ++ pairs g
  | .comp f g => pairs f ++ pairs g ++ (lasts f).product (heads g)
  | .star f => pairs f ++ (lasts f).product (heads f)

variable {f g : RegularExpression α} {w : List α} {a b : α}

theorem matchEpsilon_of_nil (h : [] ∈ f.matches') : f.matchEpsilon = true :=
  (RegularExpression.rmatch_iff_matches' f []).mpr h

theorem mem_heads (h : w ∈ f.matches') (begins : w.head? = some a) : a ∈ heads f := by
  induction f generalizing w with
  | zero => cases h
  | epsilon =>
    cases h
    cases begins
  | char b =>
    cases h
    exact List.mem_singleton.mpr (Option.some.inj begins).symm
  | plus f g ihf ihg =>
    rcases h with h | h
    · exact List.mem_append_left _ (ihf h begins)
    · exact List.mem_append_right _ (ihg h begins)
  | comp f g ihf ihg =>
    obtain ⟨u, hu, v, hv, rfl⟩ := Language.mem_mul.mp h
    cases u with
    | nil =>
      refine List.mem_append_right _ ?_
      rw [matchEpsilon_of_nil hu]
      exact ihg hv begins
    | cons c u => exact List.mem_append_left _ (ihf hu begins)
  | star f ih =>
    obtain ⟨words, rfl, each⟩ := Language.mem_kstar_iff_exists_nonempty.mp h
    cases words with
    | nil => cases begins
    | cons u words =>
      obtain ⟨hu, nonempty⟩ := each u List.mem_cons_self
      refine ih hu ?_
      rwa [List.flatten_cons, List.head?_append_of_ne_nil _ nonempty] at begins

theorem mem_lasts (h : w ∈ f.matches') (ends : w.getLast? = some a) : a ∈ lasts f := by
  induction f generalizing w with
  | zero => cases h
  | epsilon =>
    cases h
    cases ends
  | char b =>
    cases h
    exact List.mem_singleton.mpr (Option.some.inj ends).symm
  | plus f g ihf ihg =>
    rcases h with h | h
    · exact List.mem_append_left _ (ihf h ends)
    · exact List.mem_append_right _ (ihg h ends)
  | comp f g ihf ihg =>
    obtain ⟨u, hu, v, hv, rfl⟩ := Language.mem_mul.mp h
    cases v with
    | nil =>
      refine List.mem_append_left _ ?_
      rw [matchEpsilon_of_nil hv]
      rw [List.append_nil] at ends
      exact ihf hu ends
    | cons c v =>
      rw [List.getLast?_append_of_ne_nil _ (List.cons_ne_nil c v)] at ends
      exact List.mem_append_right _ (ihg hv ends)
  | star f ih =>
    obtain ⟨words, rfl, each⟩ := Language.mem_kstar_iff_exists_nonempty.mp h
    rcases List.eq_nil_or_concat words with rfl | ⟨words, u, rfl⟩
    · cases ends
    · obtain ⟨hu, nonempty⟩ := each u (by simp)
      refine ih hu ?_
      rwa [List.concat_eq_append, List.flatten_append, List.flatten_singleton,
        List.getLast?_append_of_ne_nil _ nonempty] at ends

omit [DecidableEq α] in
/-- Neighbours in two words one after the other are neighbours in one of them, or the last of the
one and the first of the other. -/
theorem pair_of_append {u v : List α} (h : [a, b] <:+: u ++ v) :
    [a, b] <:+: u ∨ [a, b] <:+: v ∨ u.getLast? = some a ∧ v.head? = some b := by
  induction u with
  | nil => exact .inr (.inl h)
  | cons c u ih =>
    rcases List.infix_cons_iff.mp h with h | h
    · cases u with
      | nil =>
        obtain ⟨rfl, next⟩ := List.cons_prefix_cons.mp h
        refine .inr (.inr ⟨rfl, ?_⟩)
        obtain ⟨rest, split⟩ := next
        rw [show v = b :: rest from split.symm]
        rfl
      | cons d u =>
        obtain ⟨rfl, next⟩ := List.cons_prefix_cons.mp h
        obtain ⟨rfl, -⟩ := List.cons_prefix_cons.mp next
        exact .inl ⟨[], u, rfl⟩
    · rcases ih h with h | h | ⟨ends, begins⟩
      · exact .inl (h.trans (List.infix_cons (List.infix_refl u)))
      · exact .inr (.inl h)
      · refine .inr (.inr ⟨?_, begins⟩)
        cases u with
        | nil => cases ends
        | cons d u => rwa [List.getLast?_cons_cons]

theorem mem_pairs (h : w ∈ f.matches') (beside : [a, b] <:+: w) : (a, b) ∈ pairs f := by
  induction f generalizing w with
  | zero => cases h
  | epsilon =>
    cases h
    exact absurd beside.length_le (by simp)
  | char c =>
    cases h
    exact absurd beside.length_le (by simp)
  | plus f g ihf ihg =>
    rcases h with h | h
    · exact List.mem_append_left _ (ihf h beside)
    · exact List.mem_append_right _ (ihg h beside)
  | comp f g ihf ihg =>
    obtain ⟨u, hu, v, hv, rfl⟩ := Language.mem_mul.mp h
    rcases pair_of_append beside with h | h | ⟨ends, begins⟩
    · exact List.mem_append_left _ (List.mem_append_left _ (ihf hu h))
    · exact List.mem_append_left _ (List.mem_append_right _ (ihg hv h))
    · exact List.mem_append_right _
        (List.pair_mem_product.mpr ⟨mem_lasts hu ends, mem_heads hv begins⟩)
  | star f ih =>
    obtain ⟨words, rfl, each⟩ := Language.mem_kstar.mp h
    clear h
    induction words with
    | nil => exact absurd beside.length_le (by simp)
    | cons u words ihw =>
      have later : words.flatten ∈ f.star.matches' :=
        Language.mem_kstar.mpr ⟨words, rfl, fun v hv => each v (List.mem_cons_of_mem _ hv)⟩
      rcases pair_of_append beside with h | h | ⟨ends, begins⟩
      · exact List.mem_append_left _ (ih (each u List.mem_cons_self) h)
      · exact ihw (fun v hv => each v (List.mem_cons_of_mem _ hv)) h
      · exact List.mem_append_right _ (List.pair_mem_product.mpr
          ⟨mem_lasts (each u List.mem_cons_self) ends, mem_heads (f := f.star) later begins⟩)

end Words

end Form

/-! ### A name in front of an opening bracket -/

/-- The construct may begin with an opening bracket. -/
def Construct.opens : Construct → Bool
  | .annassign | .augassign | .compOp | .compFor | .syncCompFor | .compIf | .sliceop
  | .fstringConversion | .fstringFormatSpec => false
  | _ => true

/-- The construct may end with a name. -/
def Construct.endsInName : Construct → Bool
  | .simpleStmt | .suite | .decorated | .decorators | .decorator | .funcdef | .asyncFuncdef
  | .paramComma | .classdef | .asyncStmt | .ifStmt | .whileStmt | .forStmt | .tryStmt | .withStmt
  | .augassign | .compOp | .fstring | .fstringExpr => false
  | _ => true

/-- The symbol may begin with an opening bracket. -/
def Symbol.opens : Symbol → Bool
  | .token t => t = .operator "("
  | .construct n => n.opens

/-- The symbol may end with a name. -/
def Symbol.endsInName : Symbol → Bool
  | .token t => t = .name
  | .construct n => n.endsInName

/-- Neighbours in a construct of which the first may end with a name and the second may begin with
an opening bracket: before a trailer, before the arguments of a decorator, and after the name of a
class or function. -/
def Meets (n : Construct) (s s' : Symbol) : Prop :=
  s' = .construct .trailer ∨
  n = .decorator ∧ s' = .token (.operator "(") ∨
  n = .classdef ∧ s = .token .name ∧ s' = .token (.operator "(") ∨
  n = .funcdef ∧ s = .token .name ∧ s' = .construct .parameters

instance (n : Construct) (s s' : Symbol) : Decidable (Meets n s s') :=
  inferInstanceAs (Decidable (_ ∨ _ ∧ _ ∨ _ ∧ _ ∧ _ ∨ _ ∧ _ ∧ _))

theorem Construct.opens_of_heads (n : Construct) :
    ∀ s ∈ Form.heads n.form, s.opens = true → n.opens = true := by
  cases n <;> decide

theorem Construct.endsInName_of_lasts (n : Construct) :
    ∀ s ∈ Form.lasts n.form, s.endsInName = true → n.endsInName = true := by
  cases n <;> decide

theorem Construct.meets_of_pairs (n : Construct) :
    ∀ p ∈ Form.pairs n.form, p.1.endsInName = true → p.2.opens = true → Meets n p.1 p.2 := by
  cases n <;> decide +kernel

section Derivations

variable {last : Bool} {s : Symbol} {t : Tree}

/-- What begins with an opening bracket is derived from a symbol that may. -/
theorem Derives.opens (h : Derives last s t) {token : Token} (begins : t.tokens.head? = some token)
    (isBracket : token.kind = .operator ∧ token.text = "(") : s.opens = true := by
  induction h using Derives.parts_induction with
  | token last t token' accepts =>
    obtain rfl := Option.some.inj begins
    have kind := accepts.1
    rw [isBracket.1] at kind
    cases t with
    | operator sign => simp [Symbol.opens, ← accepts.operator.2, isBracket.2]
    | _ => cases kind
  | construct last n w ts form parts derived =>
    cases ts with
    | nil => cases begins
    | cons t ts =>
      obtain ⟨s, l, first, here, ih⟩ := derived.get (i := 0) rfl
      rw [← List.head?_eq_getElem?] at first
      change (t.tokens ++ _).head? = some token at begins
      rw [List.head?_append_of_ne_nil _ here.tokens_ne_nil] at begins
      exact n.opens_of_heads s (Form.mem_heads form first) (ih begins)
  | single last n w t form parts derived =>
    obtain ⟨s, l, first, -, ih⟩ := derived.get (i := 0) rfl
    rw [← List.head?_eq_getElem?] at first
    exact n.opens_of_heads s (Form.mem_heads form first) (ih begins)

/-- What ends with a name is derived from a symbol that may, unless it is at the end of the file. -/
theorem Derives.endsInName (h : Derives last s t) (inside : last = false) {token : Token}
    (ends : t.tokens.getLast? = some token) (isName : token.kind = .name) :
    s.endsInName = true := by
  induction h using Derives.parts_induction with
  | token last t token' accepts =>
    have same : token' = token := Option.some.inj ends
    subst same
    have kind := accepts.1
    rw [isName] at kind
    cases t with
    | name => rfl
    | _ => cases kind
  | construct last n w ts form parts derived =>
    subst inside
    rcases List.eq_nil_or_concat ts with rfl | ⟨before, u, rfl⟩
    · cases ends
    · rw [List.concat_eq_append] at derived ends
      obtain ⟨s, final, here, ih⟩ := derived.getLast List.getLast?_concat
      rw [Tree.tokens, Tree.tokensOf_eq, List.flatMap_append, List.flatMap_singleton,
        List.getLast?_append_of_ne_nil _ here.tokens_ne_nil] at ends
      exact n.endsInName_of_lasts s (Form.mem_lasts form final) (ih rfl ends)
  | single last n w t form parts derived =>
    subst inside
    obtain ⟨s, final, -, ih⟩ := derived.getLast rfl
    exact n.endsInName_of_lasts s (Form.mem_lasts form final) (ih rfl ends)

/-- Where a name stands in front of an opening bracket. -/
theorem Admitted.meets {kind : NodeKind} {ts : List Tree} (h : Admitted (.node kind ts)) {i : Nat}
    {u v : Tree} (hu : ts[i]? = some u) (hv : ts[i + 1]? = some v) {name bracket : Token}
    (ends : u.tokens.getLast? = some name) (isName : name.kind = .name)
    (begins : v.tokens.head? = some bracket)
    (isBracket : bracket.kind = .operator ∧ bracket.text = "(") :
    ∃ n s s' l l', Construct.kind n = kind ∧ Meets n s s' ∧ Derives l s u ∧ Derives l' s' v := by
  obtain ⟨last, n, w, rfl, form, parts⟩ := h
  obtain ⟨s, s', l, l', beside, first, second, atEnd⟩ := parts.neighbours hu hv
  have opens := second.opens begins isBracket
  have inside : l = false := by
    refine Bool.eq_false_iff.mpr fun final => ?_
    rw [atEnd final] at opens
    cases opens
  exact ⟨n, s, s', l, l', rfl, n.meets_of_pairs (s, s') (Form.mem_pairs form beside)
    (first.endsInName inside ends isName) opens, first, second⟩

end Derivations

/-! ### The forms of trailers and classes -/

section Forms

variable {last : Bool} {w : List Symbol} {t : Tree} {ts : List Tree}

theorem Form.mem_mul {f g : Form} :
    w ∈ (f * g).matches' ↔ ∃ u ∈ f.matches', ∃ v ∈ g.matches', u ++ v = w := Language.mem_mul

theorem Form.mem_add {f g : Form} :
    w ∈ (f + g).matches' ↔ w ∈ f.matches' ∨ w ∈ g.matches' := Iff.rfl

theorem Form.mem_the (n : Construct) : w ∈ (Form.the n).matches' ↔ w = [.construct n] :=
  Iff.rfl

theorem Form.mem_tok (a : Terminal) : w ∈ (Form.tok a).matches' ↔ w = [.token a] := Iff.rfl

theorem Form.mem_sign (s : String) :
    w ∈ (Form.sign s).matches' ↔ w = [.token (.operator s)] := Iff.rfl

theorem Form.mem_word (s : String) :
    w ∈ (Form.word s).matches' ↔ w = [.token (.keyword s)] := Iff.rfl

theorem Form.mem_opt (f : Form) :
    w ∈ (Form.opt f).matches' ↔ w = [] ∨ w ∈ f.matches' := Iff.rfl

theorem trailer_words (form : w ∈ (Construct.form .trailer).matches') :
    w = [.token (.operator "("), .token (.operator ")")] ∨
    w = [.token (.operator "("), .construct .arglist, .token (.operator ")")] ∨
    w = [.token (.operator "["), .construct .subscriptlist, .token (.operator "]")] ∨
    w = [.token (.operator "."), .token .name] := by
  simp only [Construct.form, Form.mem_add, Form.mem_mul, Form.mem_the, Form.mem_tok, Form.mem_sign,
    Form.mem_opt, exists_eq_left, exists_eq_left', List.append_nil, List.cons_append,
    List.nil_append, or_and_right, exists_or] at form
  rcases form with ((rfl | rfl) | rfl) | rfl <;> simp

/-- The fifth part of a class is a colon or a bracket that closes. -/
theorem classdef_fifth (form : w ∈ (Construct.form .classdef).matches') {s : Symbol}
    (fifth : w[4]? = some s) :
    s = .token (.operator ":") ∨ s = .token (.operator ")") := by
  simp only [Construct.form, Form.block, Form.mem_add, Form.mem_mul, Form.mem_the, Form.mem_tok,
    Form.mem_sign, Form.mem_word, Form.mem_opt, exists_eq_left, exists_eq_left', List.append_nil,
    List.cons_append, List.nil_append, or_and_right, exists_or] at form
  rcases form with rfl | (rfl | rfl | rfl) <;> simp_all

theorem Parts.two {R : Bool → Symbol → Tree → Prop} {a b : Symbol} (h : Parts R last [a, b] ts)
    (closed : b ≠ .token .newline) : ∃ t u l l', ts = [t, u] ∧ R l a t ∧ R l' b u := by
  cases h with
  | cons first h =>
    cases h with
    | unterminated => exact absurd rfl closed
    | cons second h =>
      cases h
      exact ⟨_, _, _, _, rfl, first, second⟩

theorem Parts.three {R : Bool → Symbol → Tree → Prop} {a b c : Symbol}
    (h : Parts R last [a, b, c] ts) (closed : c ≠ .token .newline) :
    ∃ t u v l l' l'', ts = [t, u, v] ∧ R l a t ∧ R l' b u ∧ R l'' c v := by
  cases h with
  | cons first h =>
    obtain ⟨u, v, l, l', rfl, second, third⟩ := h.two closed
    exact ⟨_, u, v, _, l, l', rfl, first, second, third⟩

theorem inBrackets_of_other {first : Token} {second : Tree} {rest : List Tree}
    (other : first.text ≠ "(") :
    Cursor.inBrackets (.leaf first :: second :: rest) = .ok false := by
  change (if first.text = "(" then _ else _) = _
  rw [if_neg other]
  rfl

theorem inBrackets_of_brackets {opening closing : Token} (isOpening : opening.text = "(")
    (isClosing : closing.text = ")") (inner : List Tree) :
    Cursor.inBrackets (.leaf opening :: (inner ++ [.leaf closing])) = .ok true := by
  cases inner <;>
    simp [Cursor.inBrackets, Tree.text, Tree.text?, isOpening, isClosing, bind, Except.bind, pure,
      Except.pure]

/-- A trailer begins with an operator, and its parts are in brackets if that is an opening one. -/
theorem Admitted.trailer (h : Admitted (.node .trailer ts)) :
    ∃ token rest, ts = .leaf token :: rest ∧ token.kind = .operator ∧
      Cursor.inBrackets ts = .ok (token.text = "(" : Bool) := by
  obtain ⟨last, n, w, kind, form, parts⟩ := h
  obtain rfl : n = .trailer := by
    cases n with
    | trailer => rfl
    | _ => cases kind
  rcases trailer_words form with rfl | rfl | rfl | rfl
  · obtain ⟨t, u, _, _, rfl, ht, hu⟩ := parts.two (by simp)
    obtain ⟨opening, rfl, isOpening⟩ := ht.exists_token
    obtain ⟨closing, rfl, isClosing⟩ := hu.exists_token
    refine ⟨opening, _, rfl, isOpening.1, ?_⟩
    rw [decide_eq_true isOpening.operator.2]
    exact inBrackets_of_brackets isOpening.operator.2 isClosing.operator.2 []
  · obtain ⟨t, u, v, _, _, _, rfl, ht, -, hv⟩ := parts.three (by simp)
    obtain ⟨opening, rfl, isOpening⟩ := ht.exists_token
    obtain ⟨closing, rfl, isClosing⟩ := hv.exists_token
    refine ⟨opening, _, rfl, isOpening.1, ?_⟩
    rw [decide_eq_true isOpening.operator.2]
    exact inBrackets_of_brackets isOpening.operator.2 isClosing.operator.2 [u]
  · obtain ⟨t, u, v, _, _, _, rfl, ht, -, -⟩ := parts.three (by simp)
    obtain ⟨opening, rfl, isOpening⟩ := ht.exists_token
    have other : opening.text ≠ "(" := by simp [isOpening.operator.2]
    exact ⟨opening, _, rfl, isOpening.1, by rw [decide_eq_false other, inBrackets_of_other other]⟩
  · obtain ⟨t, u, _, _, rfl, ht, -⟩ := parts.two (by simp)
    obtain ⟨dot, rfl, isDot⟩ := ht.exists_token
    have other : dot.text ≠ "(" := by simp [isDot.operator.2]
    exact ⟨dot, _, rfl, isDot.1, by rw [decide_eq_false other, inBrackets_of_other other]⟩

theorem Derives.isTrailer (h : Derives last (.construct .trailer) t) :
    t.isKind .trailer = true := by
  cases h with
  | construct form parts => rfl
  | single form parts =>
    -- a trailer has two parts at least
    rcases trailer_words form with rfl | rfl | rfl | rfl
    · obtain ⟨_, _, _, _, ⟨⟩, -⟩ := parts.two (by simp)
    · obtain ⟨_, _, _, _, _, _, ⟨⟩, -⟩ := parts.three (by simp)
    · obtain ⟨_, _, _, _, _, _, ⟨⟩, -⟩ := parts.three (by simp)
    · obtain ⟨_, _, _, _, ⟨⟩, -⟩ := parts.two (by simp)

/-- The fifth part of a class does not begin with an opening bracket. -/
theorem Admitted.classdef_fifth (h : Admitted (.node .classdef ts)) (fifth : ts[4]? = some t)
    {token : Token} (begins : t.tokens.head? = some token) : token.text ≠ "(" := by
  obtain ⟨last, n, w, kind, form, parts⟩ := h
  obtain rfl : n = .classdef := by
    cases n with
    | classdef => rfl
    | _ => cases kind
  obtain ⟨s, l, hs, derived⟩ := parts.get fifth
  rcases Grammar.classdef_fifth form hs with rfl | rfl
  all_goals
    obtain ⟨other, rfl, accepts⟩ := derived.exists_token
    obtain rfl := Option.some.inj begins
    rw [accepts.operator.2]
    decide

end Forms

end CodeIndex.Grammar
