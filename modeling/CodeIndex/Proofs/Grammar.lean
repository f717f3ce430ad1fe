import CodeIndex.Proofs.SourceOrder
import Mathlib.Computability.RegularExpressions

/-!
# The grammar of the sources

The constructs of the indexed language, and for each of them a regular expression over tokens and
constructs that says which parts it may have. It covers all versions of the language at once: where
versions differ, the alternatives of all of them are allowed.

A syntax tree leaves some things out. A construct that has a single part may be represented by this
part alone. The beginning and the end of an indented block are no tokens. The line break at the end
of the last line may be missing, so what is derived at the end of the file may end without it. And
the parameters of a function or of an anonymous function are constructs of their own, each of them
with the comma after it.

## What is proved

* `Derives.parts_induction` — induction over derivations, with what is known of all parts.
* `Derives.of_has` — every construct inside a derived tree has parts that its form allows.
* `Parts.neighbours` — neighbouring parts are derived from neighbouring symbols.
-/

namespace CodeIndex.Grammar

/-- A kind of token, for operators and reserved words with the text. -/
inductive Terminal where
  | name | number | string | fstringStart | fstringString | fstringEnd | newline | endmarker
  | keyword (word : String)
  | operator (sign : String)
  deriving DecidableEq

/-- The kind that tokens of a tree have. -/
def Terminal.kind : Terminal → NodeKind
  | name => .name
  | number => .other "number"
  | string => .string
  | fstringStart => .other "fstring_start"
  | fstringString => .other "fstring_string"
  | fstringEnd => .other "fstring_end"
  | newline => .other "newline"
  | endmarker => .endmarker
  | keyword _ => .keyword
  | operator _ => .operator

/-- The text that is asked for, if there is one. -/
def Terminal.text? : Terminal → Option String
  | keyword word => some word
  | operator sign => some sign
  | _ => none

/-- The token is of this kind. -/
def Terminal.Accepts (t : Terminal) (token : Token) : Prop :=
  token.kind = t.kind ∧ (t.text? = none ∨ t.text? = some token.text)

instance (t : Terminal) (token : Token) : Decidable (t.Accepts token) :=
  inferInstanceAs (Decidable (_ ∧ (_ ∨ _)))

/-- The constructs. A parameter with a comma after it is told from one without. -/
inductive Construct where
  | fileInput | simpleStmt | suite | decorated | decorators | decorator
  | funcdef | asyncFuncdef | parameters | paramComma | paramLast | tfpdef | fpdef | fplist
  | classdef | asyncStmt | ifStmt | whileStmt | forStmt | tryStmt | exceptClause | withStmt
  | withItem
  | exprStmt | annassign | augassign | printStmt | delStmt | returnStmt | raiseStmt | globalStmt
  | nonlocalStmt | execStmt | assertStmt
  | importName | importFrom | importAsName | importAsNames | dottedAsName | dottedAsNames
  | dottedName
  | namedexprTest | test | lambdef | orTest | andTest | notTest | comparison | compOp | starExpr
  | expr | xorExpr | andExpr | shiftExpr | arithExpr | term | factor | power | atomExpr | atom
  | strings | fstring | fstringExpr | fstringConversion | fstringFormatSpec
  | trailer | arglist | argument | subscriptlist | subscript | sliceop
  | testlist | testlistStarExpr | testlistComp | testlistSafe | testlistOne | exprlist
  | dictorsetmaker
  | compFor | syncCompFor | compIf | yieldExpr | yieldArg
  deriving DecidableEq

/-- The kind that constructs of a tree have. -/
def Construct.kind : Construct → NodeKind
  | fileInput => .other "file_input"
  | simpleStmt => .other "simple_stmt"
  | suite => .suite
  | decorated => .other "decorated"
  | decorators => .other "decorators"
  | decorator => .other "decorator"
  | funcdef => .funcdef
  | asyncFuncdef => .other "async_funcdef"
  | parameters => .parameters
  | paramComma | paramLast => .param
  | tfpdef => .tfpdef
  | fpdef => .other "fpdef"
  | fplist => .other "fplist"
  | classdef => .classdef
  | asyncStmt => .other "async_stmt"
  | ifStmt => .other "if_stmt"
  | whileStmt => .other "while_stmt"
  | forStmt => .forStmt
  | tryStmt => .other "try_stmt"
  | exceptClause => .exceptClause
  | withStmt => .withStmt
  | withItem => .withItem
  | exprStmt => .exprStmt
  | annassign => .annassign
  | augassign => .other "augassign"
  | printStmt => .other "print_stmt"
  | delStmt => .other "del_stmt"
  | returnStmt => .other "return_stmt"
  | raiseStmt => .other "raise_stmt"
  | globalStmt => .other "global_stmt"
  | nonlocalStmt => .other "nonlocal_stmt"
  | execStmt => .other "exec_stmt"
  | assertStmt => .other "assert_stmt"
  | importName => .importName
  | importFrom => .importFrom
  | importAsName => .importAsName
  | importAsNames => .importAsNames
  | dottedAsName => .dottedAsName
  | dottedAsNames => .dottedAsNames
  | dottedName => .dottedName
  | namedexprTest => .other "namedexpr_test"
  | test => .other "test"
  | lambdef => .other "lambdef"
  | orTest => .other "or_test"
  | andTest => .other "and_test"
  | notTest => .other "not_test"
  | comparison => .other "comparison"
  | compOp => .other "comp_op"
  | starExpr => .starExpr
  | expr => .other "expr"
  | xorExpr => .other "xor_expr"
  | andExpr => .other "and_expr"
  | shiftExpr => .other "shift_expr"
  | arithExpr => .other "arith_expr"
  | term => .other "term"
  | factor => .other "factor"
  | power => .power
  | atomExpr => .atomExpr
  | atom => .atom
  | strings => .other "strings"
  | fstring => .other "fstring"
  | fstringExpr => .other "fstring_expr"
  | fstringConversion => .other "fstring_conversion"
  | fstringFormatSpec => .other "fstring_format_spec"
  | trailer => .trailer
  | arglist => .arglist
  | argument => .argument
  | subscriptlist => .other "subscriptlist"
  | subscript => .other "subscript"
  | sliceop => .other "sliceop"
  | testlist => .testlist
  | testlistStarExpr => .testlistStarExpr
  | testlistComp => .testlistComp
  | testlistSafe => .other "testlist_safe"
  | testlistOne => .other "testlist1"
  | exprlist => .exprlist
  | dictorsetmaker => .other "dictorsetmaker"
  | compFor => .compFor
  | syncCompFor => .other "sync_comp_for"
  | compIf => .other "comp_if"
  | yieldExpr => .other "yield_expr"
  | yieldArg => .other "yield_arg"

/-- A token or a construct, as it occurs in a form. -/
inductive Symbol where
  | token (t : Terminal)
  | construct (n : Construct)
  deriving DecidableEq

/-- A form: which symbols may stand one after the other. -/
abbrev Form := RegularExpression Symbol

/-! ### Forms -/

namespace Form

/-- A token. -/
def tok (t : Terminal) : Form := .char (.token t)

/-- A reserved word. -/
def word (w : String) : Form := tok (.keyword w)

/-- An operator. -/
def sign (s : String) : Form := tok (.operator s)

/-- A construct. -/
def the (n : Construct) : Form := .char (.construct n)

def opt (f : Form) : Form := 1 + f

def repeated (f : Form) : Form := f * f.star

def oneOf (fs : List Form) : Form := fs.foldr (· + ·) 0

/-- Items with commas between them, and perhaps one after the last. -/
def listed (item : Form) : Form := item * (sign "," * item).star * opt (sign ",")

/-- Operands with operators between them. -/
def joined (operand operators : Form) : Form := operand * (operators * operand).star

/-- A block after a colon. -/
def block : Form := sign ":" * the .suite

def elseBlock : Form := opt (word "else" * block)

/-- A statement on one line, one of several. -/
def smallStatement : Form :=
  oneOf [the .exprStmt, the .printStmt, the .delStmt, word "pass", word "break", word "continue",
    the .returnStmt, the .raiseStmt, the .yieldExpr, the .importName, the .importFrom,
    the .globalStmt, the .nonlocalStmt, the .execStmt, the .assertStmt]

def statement : Form :=
  oneOf [the .simpleStmt, the .ifStmt, the .whileStmt, the .forStmt, the .tryStmt, the .withStmt,
    the .funcdef, the .classdef, the .decorated, the .asyncStmt, tok .newline]

/-- The parameters of a function. -/
def parameterList : Form :=
  (the .paramComma + the .fpdef * opt (sign "=" * the .test) * sign "," + sign "*" * sign "," +
    sign "/" * sign ",").star *
  opt (the .paramLast + the .fpdef * opt (sign "=" * the .test) + sign "*" + sign "/")

/-- A parameter without the comma after it. -/
def parameter : Form :=
  opt (sign "*" + sign "**") * (tok .name + the .tfpdef + the .fpdef) * opt (sign "=" * the .test)

def fstringContent : Form := tok .fstringString + the .fstringExpr

def testOrStar : Form := the .namedexprTest + the .starExpr

def compIter : Form := opt (the .compFor + the .compIf)

def forClause : Form :=
  word "for" * the .exprlist * word "in" * (the .orTest + the .testlistSafe) * compIter

def dictItem : Form := the .test * sign ":" * the .test + sign "**" * the .expr

/-- Items of a display, or one item for each element of something else. -/
def display (item : Form) : Form := item * (the .compFor + (sign "," * item).star * opt (sign ","))

end Form

open Form in
/-- The form of a construct. -/
def Construct.form : Construct → Form
  | fileInput => statement.star * tok .endmarker
  | simpleStmt =>
    smallStatement * (sign ";" * smallStatement).star * opt (sign ";") * tok .newline
  | suite => the simpleStmt + tok .newline * repeated statement
  | decorated => the decorators * (the classdef + the funcdef + the asyncFuncdef)
  | decorators => repeated (the decorator)
  | decorator =>
    sign "@" * (the dottedName * opt (sign "(" * opt (the arglist) * sign ")") +
      the namedexprTest) * tok .newline
  | funcdef =>
    word "def" * tok .name * the parameters * opt (sign "->" * the test) * block
  | asyncFuncdef => word "async" * the funcdef
  | parameters => sign "(" * parameterList * sign ")"
  | paramComma => parameter * sign ","
  | paramLast => parameter
  | tfpdef => tok .name * opt (sign ":" * the test)
  | fpdef => tok .name + sign "(" * the fplist * sign ")"
  | fplist => listed (the fpdef)
  | classdef =>
    word "class" * tok .name *
      opt (sign "(" * opt (the arglist + the testlist) * sign ")") * block
  | asyncStmt => word "async" * (the funcdef + the withStmt + the forStmt)
  | ifStmt =>
    word "if" * the namedexprTest * block *
      (word "elif" * the namedexprTest * block).star * elseBlock
  | whileStmt => word "while" * the namedexprTest * block * elseBlock
  | forStmt =>
    word "for" * the exprlist * word "in" * (the testlist + the testlistStarExpr) * block *
      elseBlock
  | tryStmt =>
    word "try" * block *
      (repeated (the exceptClause * block) * elseBlock * opt (word "finally" * block) +
        word "finally" * block)
  | exceptClause =>
    word "except" * opt (the test * opt ((word "as" + sign ",") * the test))
  | withStmt => word "with" * the withItem * (sign "," * the withItem).star * block
  | withItem => the test * opt (word "as" * the expr)
  | exprStmt =>
    (the testlistStarExpr + the testlist) *
      (the annassign + the augassign * (the yieldExpr + the testlist) +
        (sign "=" * (the yieldExpr + the testlistStarExpr + the testlist)).star)
  | annassign =>
    sign ":" * the test * opt (sign "=" * (the yieldExpr + the testlistStarExpr))
  | augassign =>
    oneOf (["+=", "-=", "*=", "@=", "/=", "%=", "&=", "|=", "^=", "<<=", ">>=", "**=",
      "//="].map sign)
  | printStmt =>
    word "print" * (opt (listed (the test)) +
      sign ">>" * the test * opt (repeated (sign "," * the test) * opt (sign ",")))
  | delStmt => word "del" * the exprlist
  | returnStmt => word "return" * opt (the testlist + the testlistStarExpr)
  | raiseStmt =>
    word "raise" * opt (the test * (opt (word "from" * the test) +
      sign "," * the test * opt (sign "," * the test)))
  | globalStmt => word "global" * joined (tok .name) (sign ",")
  | nonlocalStmt => word "nonlocal" * joined (tok .name) (sign ",")
  | execStmt => word "exec" * the expr * opt (word "in" * the test * opt (sign "," * the test))
  | assertStmt => word "assert" * the test * opt (sign "," * the test)
  | importName => word "import" * the dottedAsNames
  | importFrom =>
    word "from" *
      ((sign "." + sign "...").star * the dottedName + repeated (sign "." + sign "...")) *
      word "import" * (sign "*" + sign "(" * the importAsNames * sign ")" + the importAsNames)
  | importAsName => tok .name * opt (word "as" * tok .name)
  | importAsNames => listed (the importAsName)
  | dottedAsName => the dottedName * opt (word "as" * tok .name)
  | dottedAsNames => joined (the dottedAsName) (sign ",")
  | dottedName => joined (tok .name) (sign ".")
  | namedexprTest => the test * opt (sign ":=" * the test)
  | test => the orTest * opt (word "if" * the orTest * word "else" * the test) + the lambdef
  | lambdef => word "lambda" * parameterList * sign ":" * the test
  | orTest => joined (the andTest) (word "or")
  | andTest => joined (the notTest) (word "and")
  | notTest => word "not" * the notTest + the comparison
  | comparison => joined (the expr) (the compOp)
  | compOp =>
    oneOf (["<", ">", "==", ">=", "<=", "<>", "!="].map sign) + word "in" +
      word "not" * word "in" + word "is" + word "is" * word "not"
  | starExpr => sign "*" * the expr
  | expr => joined (the xorExpr) (sign "|")
  | xorExpr => joined (the andExpr) (sign "^")
  | andExpr => joined (the shiftExpr) (sign "&")
  | shiftExpr => joined (the arithExpr) (sign "<<" + sign ">>")
  | arithExpr => joined (the term) (sign "+" + sign "-")
  | term => joined (the factor) (oneOf (["*", "@", "/", "%", "//"].map sign))
  | factor => (sign "+" + sign "-" + sign "~") * the factor + the power
  | power =>
    (the atomExpr + the atom * (the trailer).star) * opt (sign "**" * the factor)
  | atomExpr => opt (word "await") * the atom * (the trailer).star
  | atom =>
    oneOf [sign "(" * opt (the yieldExpr + the testlistComp) * sign ")",
      sign "[" * opt (the testlistComp) * sign "]",
      sign "\x7b" * opt (the dictorsetmaker) * sign "\x7d",
      sign "`" * the testlistOne * sign "`", tok .name, tok .number, the strings, sign "...",
      word "None", word "True", word "False"]
  | strings => repeated (tok .string + the fstring)
  | fstring => tok .fstringStart * fstringContent.star * tok .fstringEnd
  | fstringExpr =>
    sign "\x7b" * (the testlist + the testlistComp + the yieldExpr) * opt (sign "=") *
      opt (the fstringConversion) * opt (the fstringFormatSpec) * sign "\x7d"
  | fstringConversion => sign "!" * tok .name
  | fstringFormatSpec => sign ":" * fstringContent.star
  | trailer =>
    sign "(" * opt (the arglist) * sign ")" + sign "[" * the subscriptlist * sign "]" +
      sign "." * tok .name
  | arglist => listed (the argument + sign "*" * the test + sign "**" * the test)
  | argument =>
    oneOf [the test * opt (the compFor), the test * sign ":=" * the test,
      the test * sign "=" * the test, sign "**" * the test, sign "*" * the test]
  | subscriptlist => listed (the subscript + the starExpr)
  | subscript =>
    sign "." * sign "." * sign "." + the test * opt (sign ":=" * the test) +
      opt (the test) * sign ":" * opt (the test) * opt (the sliceop)
  | sliceop => sign ":" * opt (the test)
  | testlist | testlistSafe => listed (the test)
  | testlistOne => joined (the test) (sign ",")
  | testlistStarExpr => listed (the test + the starExpr)
  | testlistComp => display testOrStar
  | exprlist => listed (the expr + the starExpr)
  | dictorsetmaker => display dictItem + display testOrStar
  | compFor => opt (word "async") * (forClause + the syncCompFor)
  | syncCompFor => forClause
  | compIf => word "if" * (the orTest + the test) * compIter
  | yieldExpr => word "yield" * opt (the yieldArg + the testlist + the testlistStarExpr)
  | yieldArg => word "from" * the test + the testlist

/-! ### Derivations -/

/-- Whether what is followed by the given symbols, in a construct that is `last` or not, stands at
the end of the file. -/
def endsFile (last : Bool) : List Symbol → Bool
  | [] => last
  | rest => rest = [.token .endmarker]

/-- The trees are derived from the symbols one by one, as `R` says. At the end of the file the line
break may be missing. -/
inductive Parts (R : Bool → Symbol → Tree → Prop) : Bool → List Symbol → List Tree → Prop where
  | nil {last : Bool} : Parts R last [] []
  | unterminated : Parts R true [.token .newline] []
  | cons {last : Bool} {s : Symbol} {w : List Symbol} {t : Tree} {ts : List Tree} :
      R (endsFile last w) s t → Parts R last w ts → Parts R last (s :: w) (t :: ts)

/-- The tree is derived from the symbol, at the end of the file or not. -/
inductive Derives : Bool → Symbol → Tree → Prop where
  | token {last : Bool} {t : Terminal} {token : Token} (accepts : t.Accepts token) :
      Derives last (.token t) (.leaf token)
  | construct {last : Bool} {n : Construct} {w : List Symbol} {ts : List Tree}
      (form : w ∈ n.form.matches') (parts : Parts Derives last w ts) :
      Derives last (.construct n) (.node n.kind ts)
  /-- A construct with a single part. -/
  | single {last : Bool} {n : Construct} {w : List Symbol} {t : Tree}
      (form : w ∈ n.form.matches') (parts : Parts Derives last w [t]) :
      Derives last (.construct n) t

section Derivations

variable {R : Bool → Symbol → Tree → Prop} {last : Bool} {s : Symbol} {w : List Symbol}
  {t : Tree} {ts : List Tree}

/-- A property of derivations holds if it holds of a construct whenever it holds of its parts. -/
@[elab_as_elim]
theorem Derives.parts_induction {motive : ∀ last s t, Derives last s t → Prop}
    (token : ∀ last t token (accepts : t.Accepts token),
      motive last (.token t) (.leaf token) (.token accepts))
    (construct : ∀ last n w ts (form : w ∈ (Construct.form n).matches')
      (parts : Parts Derives last w ts),
      Parts (fun last s t => ∃ h : Derives last s t, motive last s t h) last w ts →
        motive last (.construct n) (.node n.kind ts) (.construct form parts))
    (single : ∀ last n w t (form : w ∈ (Construct.form n).matches')
      (parts : Parts Derives last w [t]),
      Parts (fun last s t => ∃ h : Derives last s t, motive last s t h) last w [t] →
        motive last (.construct n) t (.single form parts))
    (h : Derives last s t) : motive last s t h :=
  @Derives.rec motive
    (fun last w ts _ =>
      Parts (fun last s t => ∃ h : Derives last s t, motive last s t h) last w ts)
    (fun accepts => token _ _ _ accepts)
    (fun form parts derived => construct _ _ _ _ form parts derived)
    (fun form parts derived => single _ _ _ _ form parts derived) .nil .unterminated
    (fun here _ derived rest => .cons ⟨here, derived⟩ rest) last s t h

/-- Neighbouring parts are derived from neighbouring symbols. The first of them is at the end of the
file only if the other one is its end. -/
theorem Parts.neighbours (h : Parts R last w ts) {i : Nat} {u v : Tree} (hu : ts[i]? = some u)
    (hv : ts[i + 1]? = some v) : ∃ s s' l l', [s, s'] <:+: w ∧ R l s u ∧ R l' s' v ∧
      (l = true → s' = .token .endmarker) := by
  induction h generalizing i with
  | nil => cases hu
  | unterminated => cases hu
  | @cons last s w t ts here rest ih =>
    cases i with
    | succ i =>
      obtain ⟨s₁, s₂, l, l', beside, first, second, atEnd⟩ := ih hu hv
      exact ⟨s₁, s₂, l, l', List.infix_cons beside, first, second, atEnd⟩
    | zero =>
      obtain rfl := Option.some.inj hu
      cases rest with
      | nil => cases hv
      | unterminated => cases hv
      | @cons _ s' w t' ts next rest =>
        obtain rfl := Option.some.inj hv
        refine ⟨s, s', _, _, ⟨[], w, rfl⟩, here, next, fun atEnd => ?_⟩
        exact (List.cons.inj (of_decide_eq_true atEnd)).1

/-- Every part is derived from the symbol at its place. -/
theorem Parts.get (h : Parts R last w ts) {i : Nat} (ht : ts[i]? = some t) :
    ∃ s l, w[i]? = some s ∧ R l s t := by
  induction h generalizing i with
  | nil => cases ht
  | unterminated => cases ht
  | cons here _ ih =>
    cases i with
    | zero =>
      obtain rfl := Option.some.inj ht
      exact ⟨_, _, rfl, here⟩
    | succ i => exact ih ht

/-- What stands in a derived tree is a token that some symbol accepts, or has parts that the form of
a construct allows. -/
def Admitted : Tree → Prop
  | .leaf token => ∃ t : Terminal, t.Accepts token
  | .node kind ts => ∃ last n w, Construct.kind n = kind ∧ w ∈ n.form.matches' ∧
      Parts Derives last w ts

theorem Derives.of_has (h : Derives last s t) {u : Tree} (has : t.Has u) : Admitted u := by
  induction h using Derives.parts_induction with
  | token last t token accepts =>
    cases has
    exact ⟨t, accepts⟩
  | construct last n w ts form parts derived =>
    cases has with
    | self => exact ⟨last, n, w, rfl, form, parts⟩
    | part mem has =>
      obtain ⟨i, ht⟩ := List.getElem?_of_mem mem
      obtain ⟨_, _, -, -, ih⟩ := derived.get ht
      exact ih has
  | single last n w t form parts derived =>
    obtain ⟨_, _, -, -, ih⟩ := derived.get (i := 0) rfl
    exact ih has

theorem Admitted.derives (h : Admitted t) : ∃ l s, Derives l s t := by
  cases t with
  | leaf token =>
    obtain ⟨t, accepts⟩ := h
    exact ⟨false, _, .token accepts⟩
  | node kind ts =>
    obtain ⟨last, n, w, rfl, form, parts⟩ := h
    exact ⟨last, _, .construct form parts⟩

theorem Derives.exists_token {a : Terminal} (h : Derives last (.token a) t) :
    ∃ token, t = .leaf token ∧ a.Accepts token := by
  cases h with
  | token accepts => exact ⟨_, rfl, accepts⟩

theorem Terminal.Accepts.operator {sign : String} {token : Token}
    (h : Terminal.Accepts (.operator sign) token) : token.kind = .operator ∧ token.text = sign := by
  obtain ⟨kind, none | text⟩ := h
  · cases none
  · exact ⟨kind, (Option.some.inj text).symm⟩

/-! ### First and last tokens -/

theorem Parts.getLast (h : Parts R false w ts) (ends : ts.getLast? = some t) :
    ∃ s, w.getLast? = some s ∧ R false s t := by
  generalize inside : false = l at h
  induction h with
  | nil => cases ends
  | unterminated => cases ends
  | @cons last s w u ts here rest ih =>
    subst inside
    cases rest with
    | nil =>
      obtain rfl := Option.some.inj ends
      exact ⟨s, rfl, here⟩
    | cons next rest => exact ih ends rfl

/-- No construct is empty, even if the line break at its end is missing. -/
theorem Construct.form_nonempty (n : Construct) :
    n.form.rmatch [] = false ∧ n.form.rmatch [.token .newline] = false := by
  cases n <;> decide

theorem Construct.not_mem_form {n : Construct} (h : n.form.rmatch w = false) :
    w ∉ n.form.matches' := by
  intro form
  rw [(RegularExpression.rmatch_iff_matches' _ _).mpr form] at h
  cases h

/-- Every derived tree has a token. -/
theorem Derives.tokens_ne_nil (h : Derives last s t) : t.tokens ≠ [] := by
  induction h using Derives.parts_induction with
  | token last t token accepts => exact List.cons_ne_nil _ _
  | construct last n w ts form parts derived =>
    cases derived with
    | nil => exact absurd form (Construct.not_mem_form n.form_nonempty.1)
    | unterminated => exact absurd form (Construct.not_mem_form n.form_nonempty.2)
    | cons here _ =>
      obtain ⟨-, full⟩ := here
      exact List.append_ne_nil_of_left_ne_nil full _
  | single last n w t form parts derived =>
    obtain ⟨_, _, -, -, full⟩ := derived.get (i := 0) rfl
    exact full

end Derivations

end CodeIndex.Grammar

/-- The tree is one of a whole file. -/
def CodeIndex.Tree.IsGrammatical (t : Tree) : Prop :=
  Grammar.Derives false (.construct .fileInput) t
