import IssunDB.Cypher.TrivialFilters
import IssunDB.Lib.Slices

/-!
# Integer literals

How an integer is read from its text: its digits become a token, the token an atom, and the minus
signs in front are folded into it. The magnitude `2 ^ 63` is the least integer in the token and a
marker call in the atom, which a minus sign is to turn back.

* `lexer_text`, `operand_tokens` — the tokens and the expression of a nesting of signs and
  parentheses;
* `folded_eq` — what the signs are folded to;
* `readExpr_exact_iff` — when an integer is read with its exact value.
-/

namespace IssunDB.Cypher.IntegerLiterals

open List Option

/-! ## The lexer -/

/-- The tokens that the text of an integer is made of. -/
inductive Tok where
  | integer (i : Int64)
  | minus
  | lParen
  | rParen
  deriving DecidableEq

/-- The bases of integers. -/
inductive Base where
  | decimal
  | hexadecimal
  | octal
  deriving DecidableEq

namespace Base

def radix : Base → ℕ
  | decimal => 10
  | hexadecimal => 16
  | octal => 8

def overflow : Base → String
  | decimal => "SyntaxError(IntegerOverflow): integer literal out of range"
  | hexadecimal => "SyntaxError(IntegerOverflow): hexadecimal integer literal out of range"
  | octal => "SyntaxError(IntegerOverflow): octal integer literal out of range"

end Base

/-- Why a text is rejected. The texts that the parser library makes up are left out. -/
inductive SyntaxError where
  | integerOverflow (message : String)
  | unexpected
  deriving DecidableEq

/-- `char::to_digit`. -/
def toDigit (radix : ℕ) (c : Char) : Option ℕ :=
  let n := c.toNat
  let d :=
    if 48 ≤ n ∧ n ≤ 57 then n - 48
    else if 97 ≤ n ∧ n ≤ 122 then n - 87
    else if 65 ≤ n ∧ n ≤ 90 then n - 55
    else radix
  if d < radix then some d else none

/-- `char::is_digit`. -/
def isDigit (radix : ℕ) (c : Char) : Bool := (toDigit radix c).isSome

/-- `u128::from_str_radix`, with the digits before already read. -/
def fromStrRadix (radix : ℕ) : ℕ → List Char → Option ℕ
  | result, [] => some result
  | result, c :: digits => do
    let d ← toDigit radix c
    if result * radix + d < 2 ^ 128 then fromStrRadix radix (result * radix + d) digits else none

/-- `int_token`. -/
def intToken (digits : List Char) (radix : ℕ) : Option Tok :=
  match fromStrRadix radix 0 digits with
  | some v =>
    if v ≤ 2 ^ 63 - 1 then some (.integer (.ofNat v))
    else if v = 2 ^ 63 - 1 + 1 then some (.integer .minValue)
    else none
  | none => none

/-- `text::digits(radix)`: as many digits as there are, at least one. -/
def digits (radix : ℕ) (input : List Char) : Option (List Char × List Char) :=
  let run := input.takeWhile (isDigit radix)
  if run = [] then none else some (run, input.dropWhile (isDigit radix))

/-- `text::int(10)`: a zero, or digits that do not begin with a zero. -/
def int : List Char → Option (List Char × List Char)
  | '0' :: rest => some (['0'], rest)
  | input => digits 10 input

/-- The token of the digits, or the error that is emitted in its place. -/
def literalToken (base : Base) (read : List Char × List Char) :
    Except SyntaxError Tok × List Char :=
  (match intToken read.1 base.radix with
    | some tok => .ok tok
    | none => .error (.integerOverflow base.overflow), read.2)

def markedInt (lower upper : Char) (base : Base) :
    List Char → Option (Except SyntaxError Tok × List Char)
  | '0' :: c :: rest =>
    if c = lower ∨ c = upper then (digits base.radix rest).map (literalToken base) else none
  | _ => none

def hexInt : List Char → Option (Except SyntaxError Tok × List Char) :=
  markedInt 'x' 'X' .hexadecimal

def octInt : List Char → Option (Except SyntaxError Tok × List Char) := markedInt 'o' 'O' .octal

def intNum (input : List Char) : Option (Except SyntaxError Tok × List Char) :=
  (int input).map (literalToken .decimal)

/-- The symbols among the tokens. A minus sign before `>` is an arrow. -/
def symbol : List Char → Option (Except SyntaxError Tok × List Char)
  | '-' :: '>' :: _ => none
  | '-' :: rest => some (.ok .minus, rest)
  | '(' :: rest => some (.ok .lParen, rest)
  | ')' :: rest => some (.ok .rParen, rest)
  | _ => none

/-- One token. Numbers with a decimal point or an exponent, and what begins with another character,
are left out. -/
def token (input : List Char) : Option (Except SyntaxError Tok × List Char) :=
  (hexInt input).or ((octInt input).or ((intNum input).or (symbol input)))

section Consumption

variable {radix : ℕ} {input rest : List Char} {r : Except SyntaxError Tok}

lemma length_digits {run : List Char} (h : digits radix input = some (run, rest)) :
    rest.length < input.length := by
  unfold digits at h
  dsimp only at h
  split at h
  next => cases h
  next hrun =>
    obtain ⟨-, rfl⟩ := Prod.mk.inj (some.inj h)
    have hlen := congrArg List.length (takeWhile_append_dropWhile (p := isDigit radix) (l := input))
    rw [length_append] at hlen
    have hpos := length_pos_iff.mpr hrun
    omega

lemma length_markedInt {lower upper : Char} {base : Base}
    (h : markedInt lower upper base input = some (r, rest)) : rest.length < input.length := by
  unfold markedInt at h
  split at h
  next c tail =>
    split at h
    next =>
      obtain ⟨⟨run, rest'⟩, hrun, hr⟩ := map_eq_some_iff.mp h
      obtain ⟨-, rfl⟩ := Prod.mk.inj hr
      calc rest'.length < tail.length := length_digits hrun
        _ < tail.length + 1 + 1 := by omega
    next => cases h
  next => cases h

lemma length_intNum (h : intNum input = some (r, rest)) : rest.length < input.length := by
  obtain ⟨⟨run, rest'⟩, hrun, hr⟩ := map_eq_some_iff.mp h
  obtain ⟨-, rfl⟩ := Prod.mk.inj hr
  unfold int at hrun
  split at hrun
  next tail =>
    obtain ⟨-, rfl⟩ := Prod.mk.inj (some.inj hrun)
    exact Nat.lt_succ_self _
  next => exact length_digits hrun

lemma length_symbol (h : symbol input = some (r, rest)) : rest.length < input.length := by
  unfold symbol at h
  split at h
  case h_1 => cases h
  case h_5 => cases h
  all_goals
    obtain ⟨-, rfl⟩ := Prod.mk.inj (some.inj h)
    exact Nat.lt_succ_self _

lemma length_token (h : token input = some (r, rest)) : rest.length < input.length := by
  unfold token at h
  rcases or_eq_some_iff.mp h with h | ⟨-, h⟩
  · exact length_markedInt h
  rcases or_eq_some_iff.mp h with h | ⟨-, h⟩
  · exact length_markedInt h
  rcases or_eq_some_iff.mp h with h | ⟨-, h⟩
  · exact length_intNum h
  · exact length_symbol h

end Consumption

/-- `lexer`. White space between the tokens is skipped. -/
def lexer : List Char → Except SyntaxError (List Tok)
  | [] => .ok []
  | c :: cs =>
    if Texts.isWhiteSpace c then lexer cs
    else
      match _h : token (c :: cs) with
      | none => .error .unexpected
      | some (.error e, _) => .error e
      | some (.ok tok, rest) => (lexer rest).map (tok :: ·)
termination_by input => input.length
decreasing_by
  · exact Nat.lt_succ_self _
  · exact length_token ‹_›

/-! ## The parser -/

/-- The call that stands for the magnitude `2 ^ 63`. -/
def negMinInt : Expr := .functionCall "__neg_min_int__" []

/-- `lit_expr`. -/
def litExpr : Literal → Expr
  | .int n => if n = .minValue then negMinInt else .literal (.int n)
  | other => .literal other

/-- `paren_expr`: a comparison in parentheses is marked. -/
def parenExpr (inner : Expr) : Expr :=
  match inner with
  | .binaryOp op _ _ =>
    if Engine.isComparisonOp op then .functionCall "__grouped__" [inner] else inner
  | _ => inner

/-- The unary minus. -/
def negate : Expr → Expr
  | .functionCall name args =>
    if name = "__neg_min_int__" then .literal (.int .minValue)
    else .binaryOp .sub (.literal (.int 0)) (.functionCall name args)
  | .literal (.int n) => .literal (.int (-n))
  | .literal (.float f) => .literal (.float f.neg)
  | other => .binaryOp .sub (.literal (.int 0)) other

/-- An operand: an integer, an operand after a minus sign, or one in parentheses. The operators
between operands are left out. -/
def operand : ℕ → List Tok → Option (Expr × List Tok)
  | 0, _ => none
  | _ + 1, [] => none
  | _ + 1, .integer n :: toks => some (litExpr (.int n), toks)
  | fuel + 1, .minus :: toks => (operand fuel toks).map fun r => (negate r.1, r.2)
  | fuel + 1, .lParen :: toks =>
    match operand fuel toks with
    | some (e, .rParen :: rest) => some (parenExpr e, rest)
    | _ => none
  | _ + 1, .rParen :: _ => none

def expression (toks : List Tok) : Except SyntaxError Expr :=
  match operand (toks.length + 1) toks with
  | some (e, []) => .ok e
  | _ => .error .unexpected

/-- From the text to the expression. -/
def readExpr (input : List Char) : Except SyntaxError Expr := (lexer input).bind expression

/-- `evaluate_expr` on the atoms of integers. The marker is the name of no function. -/
inductive Evaluates : Expr → Except String Json → Prop
  | literal (l : Literal) : Evaluates (.literal l) (.ok l.toValue)
  | marker : Evaluates negMinInt (.error "unknown function: __neg_min_int__")

/-! ## Numerals -/

namespace Base

/-- What is written before the digits. -/
def marks : Base → List (List Char)
  | decimal => [[]]
  | hexadecimal => [['0', 'x'], ['0', 'X']]
  | octal => [['0', 'o'], ['0', 'O']]

lemma radix_pos (b : Base) : 0 < b.radix := by
  cases b <;> decide

end Base

/-- The number that digits are, after a number already read. -/
def digitsValue (radix n : ℕ) (digits : List Char) : ℕ :=
  digits.foldl (fun n c => n * radix + (toDigit radix c).getD 0) n

/-- A string of digits with the mark of their base. -/
structure Numeral where
  base : Base
  mark : List Char
  digits : List Char
  mark_mem : mark ∈ base.marks
  digits_ne_nil : digits ≠ []
  isDigit_digits : ∀ c ∈ digits, isDigit base.radix c = true

namespace Numeral

def text (n : Numeral) : List Char := n.mark ++ n.digits

def value (n : Numeral) : ℕ := digitsValue n.base.radix 0 n.digits

/-- A decimal numeral with a zero too many in front. It is more than one token. -/
def Padded (n : Numeral) : Prop := n.base = .decimal ∧ ∃ c cs, n.digits = '0' :: c :: cs

end Numeral

/-- White space. -/
structure Blank where
  text : List Char
  isWhiteSpace : ∀ c ∈ text, Texts.isWhiteSpace c = true

/-- A numeral with minus signs and parentheses around it. -/
inductive Nesting where
  | numeral (n : Numeral)
  | minus (blank : Blank) (inner : Nesting)
  | parens (before : Blank) (inner : Nesting) (after : Blank)

namespace Nesting

def text : Nesting → List Char
  | numeral n => n.text
  | minus blank inner => '-' :: (blank.text ++ inner.text)
  | parens before inner after => '(' :: (before.text ++ (inner.text ++ (after.text ++ [')'])))

/-- The numeral inside. -/
def core : Nesting → Numeral
  | numeral n => n
  | minus _ inner => inner.core
  | parens _ inner _ => inner.core

/-- The number of minus signs. -/
def minuses : Nesting → ℕ
  | numeral _ => 0
  | minus _ inner => inner.minuses + 1
  | parens _ inner _ => inner.minuses

def value : Nesting → ℤ
  | numeral n => n.value
  | minus _ inner => -inner.value
  | parens _ inner _ => inner.value

def tokens : Nesting → List Tok
  | numeral n => [.integer (.ofNat n.value)]
  | minus _ inner => .minus :: inner.tokens
  | parens _ inner _ => .lParen :: (inner.tokens ++ [.rParen])

def folded : Nesting → Expr
  | numeral n => litExpr (.int (.ofNat n.value))
  | minus _ inner => negate inner.folded
  | parens _ inner _ => parenExpr inner.folded

/-- The expression read from the text is worth the exact value, or raises. -/
def Exact (x : Nesting) : Prop :=
  ∀ e, readExpr x.text = .ok e →
    ∃ r, Evaluates e r ∧ ∀ v, r = .ok v → ∃ i : Int64, i.toInt = x.value ∧
    v = (Literal.int i).toValue

/-- The text is read, as the exact value. -/
def Accepted (x : Nesting) : Prop :=
  ∃ e, readExpr x.text = .ok e ∧
    ∃ i : Int64, i.toInt = x.value ∧ Evaluates e (.ok (Literal.int i).toValue)

/-- The exact value is read or nothing is, and with a minus sign at most a value in range is
read. -/
structure Kept (x : Nesting) : Prop where
  exact : x.Exact
  accepted : x.minuses ≤ 1 → -2 ^ 63 ≤ x.value → x.value < 2 ^ 63 → (x.Accepted ↔ ¬x.core.Padded)

/-- The magnitude is `2 ^ 63` and the minus signs cancel out. -/
def Wraps (x : Nesting) : Prop := x.core.value = 2 ^ 63 ∧ 0 < x.minuses ∧ Even x.minuses

end Nesting

/-! ## Digits -/

section Digits

variable {radix : ℕ}

lemma isDigit_iff {c : Char} : isDigit radix c = true ↔ ∃ d, toDigit radix c = some d :=
  isSome_iff_exists

lemma le_digitsValue (hradix : 0 < radix) (n : ℕ) (ds : List Char) :
    n ≤ digitsValue radix n ds := by
  induction ds generalizing n with
  | nil => exact le_refl n
  | cons c ds ih =>
    calc n ≤ n * radix := Nat.le_mul_of_pos_right n hradix
      _ ≤ n * radix + (toDigit radix c).getD 0 := Nat.le_add_right _ _
      _ ≤ digitsValue radix n (c :: ds) := ih _

/-- Digits are read if their number fits. -/
theorem fromStrRadix_eq (hradix : 0 < radix) {ds : List Char} (h : ∀ c ∈ ds, isDigit radix c = true)
    {n : ℕ} (hn : n < 2 ^ 128) : fromStrRadix radix n ds =
      if digitsValue radix n ds < 2 ^ 128 then some (digitsValue radix n ds) else none := by
  induction ds generalizing n with
  | nil => exact (if_pos hn).symm
  | cons c ds ih =>
    obtain ⟨d, hd⟩ := isDigit_iff.mp (h c mem_cons_self)
    have hvalue : digitsValue radix n (c :: ds) = digitsValue radix (n * radix + d) ds := by
      rw [digitsValue, foldl_cons, hd]
      rfl
    rw [fromStrRadix, hd, hvalue]
    change (if n * radix + d < 2 ^ 128 then _ else none) = _
    split
    next hfit => exact ih (fun c' hc' => h c' (mem_cons_of_mem c hc')) hfit
    next hover =>
      -- What follows does not make the number smaller.
      have hle := le_digitsValue hradix (n * radix + d) ds
      rw [if_neg (by omega)]

end Digits

/-- Magnitudes up to `2 ^ 63` are tokens. -/
theorem intToken_eq (n : Numeral) : intToken n.digits n.base.radix =
    if n.value ≤ 2 ^ 63 then some (.integer (.ofNat n.value)) else none := by
  unfold intToken
  rw [fromStrRadix_eq n.base.radix_pos n.isDigit_digits (by decide)]
  change (match if n.value < 2 ^ 128 then some n.value else none with
    | some v => _
    | none => none) = _
  by_cases hfit : n.value < 2 ^ 128
  · rw [if_pos hfit]
    dsimp only
    split
    next hle => rw [if_pos (by omega)]
    next hgt =>
      split
      next heq => rw [heq, if_pos (by decide)]; decide
      next hne => rw [if_neg (by omega)]
  · rw [if_neg hfit, if_neg (by omega)]

/-! ## The tokens of a text -/

/-- What may follow a numeral. -/
def Closed (rest : List Char) : Prop := ∀ c ∈ rest.head?, Texts.isWhiteSpace c = true ∨ c = ')'

/-- White space and parentheses are no digits or letters. -/
theorem toNat_of_closing {c : Char} (h : Texts.isWhiteSpace c = true ∨ c = ')') :
    ¬(48 ≤ c.toNat ∧ c.toNat ≤ 57) ∧ ¬(97 ≤ c.toNat ∧ c.toNat ≤ 122) ∧
      ¬(65 ≤ c.toNat ∧ c.toNat ≤ 90) := by
  rcases h with h | rfl
  · simp only [Texts.isWhiteSpace, Bool.or_eq_true, Bool.and_eq_true, decide_eq_true_eq] at h
    omega
  · decide

lemma toDigit_of_closing {radix : ℕ} {c : Char} (h : Texts.isWhiteSpace c = true ∨ c = ')') :
    isDigit radix c = false := by
  obtain ⟨hdigit, hlower, hupper⟩ := toNat_of_closing h
  unfold isDigit toDigit
  dsimp only
  rw [if_neg hdigit, if_neg hlower, if_neg hupper, if_neg (lt_irrefl radix)]
  rfl

lemma not_isWhiteSpace_of_isDigit {radix : ℕ} {c : Char} (h : isDigit radix c = true) :
    Texts.isWhiteSpace c = false := by
  by_contra hws
  rw [toDigit_of_closing (.inl (Bool.not_eq_false _ ▸ hws))] at h
  exact Bool.false_ne_true h

lemma digits_append {radix : ℕ} {ds rest : List Char} (hne : ds ≠ [])
    (h : ∀ c ∈ ds, isDigit radix c = true) (hrest : Closed rest) :
    digits radix (ds ++ rest) = some (ds, rest) := by
  have hstop : rest.takeWhile (isDigit radix) = [] ∧ rest.dropWhile (isDigit radix) = rest := by
    cases rest with
    | nil => exact ⟨rfl, rfl⟩
    | cons c rest =>
      have hc : ¬isDigit radix c = true := by
        rw [toDigit_of_closing (hrest c rfl)]
        exact Bool.false_ne_true
      exact ⟨takeWhile_cons_of_neg hc, dropWhile_cons_of_neg hc⟩
  unfold digits
  rw [takeWhile_append_of_pos h, dropWhile_append_of_pos h, hstop.1, hstop.2,
    append_nil]
  exact if_neg hne

lemma markedInt_of_ne {lower upper c : Char} {base : Base} {rest : List Char}
    (h : ∀ c' ∈ rest.head?, c' ≠ lower ∧ c' ≠ upper) :
    markedInt lower upper base (c :: rest) = none := by
  unfold markedInt
  split
  next c' tail heq =>
    obtain ⟨-, rfl⟩ := List.cons.inj heq
    exact if_neg (not_or.mpr (h c' rfl))
  next => rfl

lemma token_numeral (n : Numeral) (hpad : ¬n.Padded) {rest : List Char} (hrest : Closed rest) :
    token (n.text ++ rest) = some (literalToken n.base (n.digits, rest)) := by
  obtain ⟨base, mark, ds, hmark, hne, hdigits⟩ := n
  cases base with
  | hexadecimal =>
    refine or_eq_some_iff.mpr (.inl ?_)
    have hds := digits_append hne hdigits hrest
    rcases mem_pair.mp hmark with rfl | rfl
    all_goals
      change (digits 16 (ds ++ rest)).map _ = _
      rw [show digits 16 (ds ++ rest) = some (ds, rest) from hds]
      rfl
  | octal =>
    refine or_eq_some_iff.mpr (.inr ⟨?_, or_eq_some_iff.mpr (.inl ?_)⟩)
    · rcases mem_pair.mp hmark with rfl | rfl
      all_goals
        refine markedInt_of_ne fun c' hc' => ?_
        rw [← some.inj hc']
        decide
    have hds := digits_append hne hdigits hrest
    rcases mem_pair.mp hmark with rfl | rfl
    all_goals
      change (digits 8 (ds ++ rest)).map _ = _
      rw [show digits 8 (ds ++ rest) = some (ds, rest) from hds]
      rfl
  | decimal =>
    obtain rfl := mem_singleton.mp hmark
    obtain ⟨c, cs, rfl⟩ := exists_cons_of_ne_nil hne
    -- The second character is a digit or closes the numeral.
    have hsecond : ∀ c' ∈ (cs ++ rest).head?, c' ≠ 'x' ∧ c' ≠ 'X' ∧ c' ≠ 'o' ∧ c' ≠ 'O' := by
      intro c' hc'
      cases cs with
      | nil =>
        obtain ⟨-, hlower, hupper⟩ := toNat_of_closing (hrest c' hc')
        refine ⟨?_, ?_, ?_, ?_⟩ <;> rintro rfl <;> revert hlower hupper <;> decide
      | cons c'' cs =>
        obtain rfl := some.inj hc'
        have hdigit := hdigits c'' (mem_cons_of_mem c mem_cons_self)
        refine ⟨?_, ?_, ?_, ?_⟩ <;> rintro rfl <;> revert hdigit <;> decide
    refine or_eq_some_iff.mpr (.inr ⟨?_, or_eq_some_iff.mpr (.inr ⟨?_,
      or_eq_some_iff.mpr (.inl ?_)⟩)⟩)
    · exact markedInt_of_ne fun c' hc' => ⟨(hsecond c' hc').1, (hsecond c' hc').2.1⟩
    · exact markedInt_of_ne fun c' hc' => ⟨(hsecond c' hc').2.2.1, (hsecond c' hc').2.2.2⟩
    have hint : int (c :: cs ++ rest) = some (c :: cs, rest) := by
      by_cases hzero : c = '0'
      · subst hzero
        cases cs with
        | nil => rfl
        | cons c' cs => exact absurd ⟨rfl, c', cs, rfl⟩ hpad
      · rw [← digits_append hne hdigits hrest]
        unfold int
        split
        next tail heq => exact absurd (List.cons.inj heq).1 hzero
        next => rfl
    change (int (c :: cs ++ rest)).map _ = _
    rw [hint]
    rfl

lemma literalToken_eq (n : Numeral) (rest : List Char) : literalToken n.base (n.digits, rest) =
    (if n.value ≤ 2 ^ 63 then .ok (.integer (.ofNat n.value))
      else .error (.integerOverflow n.base.overflow), rest) := by
  unfold literalToken
  rw [intToken_eq]
  by_cases hfit : n.value ≤ 2 ^ 63
  · rw [if_pos hfit, if_pos hfit]
  · rw [if_neg hfit, if_neg hfit]

@[simp]
lemma lexer_nil : lexer [] = .ok [] := by
  rw [lexer]

/-- White space is skipped. -/
theorem lexer_blank (b : Blank) (rest : List Char) : lexer (b.text ++ rest) = lexer rest := by
  obtain ⟨s, hs⟩ := b
  induction s with
  | nil => rfl
  | cons c s ih =>
    change lexer (c :: (s ++ rest)) = _
    rw [lexer, if_pos (hs c mem_cons_self)]
    exact ih fun c' hc' => hs c' (mem_cons_of_mem c hc')

lemma lexer_token {c : Char} {cs rest : List Char} {r : Except SyntaxError Tok}
    (hws : Texts.isWhiteSpace c = false) (h : token (c :: cs) = some (r, rest)) :
    lexer (c :: cs) = r.bind fun tok => (lexer rest).map (tok :: ·) := by
  rw [lexer, if_neg (by rw [hws]; exact Bool.false_ne_true)]
  split
  next hnone => cases h.symm.trans hnone
  next e rest' herror =>
    obtain ⟨rfl, -⟩ := Prod.mk.inj (some.inj (h.symm.trans herror))
    rfl
  next tok rest' hok =>
    obtain ⟨rfl, rfl⟩ := Prod.mk.inj (some.inj (h.symm.trans hok))
    rfl

lemma lexer_lParen (rest : List Char) : lexer ('(' :: rest) = (lexer rest).map (.lParen :: ·) :=
  lexer_token (c := '(') (by decide) rfl

lemma lexer_rParen (rest : List Char) : lexer (')' :: rest) = (lexer rest).map (.rParen :: ·) :=
  lexer_token (c := ')') (by decide) rfl

lemma lexer_minus {rest : List Char} (h : ∀ c ∈ rest.head?, c ≠ '>') :
    lexer ('-' :: rest) = (lexer rest).map (.minus :: ·) := by
  refine lexer_token (r := .ok .minus) (by decide) ?_
  change symbol ('-' :: rest) = _
  unfold symbol
  split
  case h_1 heq => exact absurd rfl (h '>' (by rw [(List.cons.inj heq).2]; rfl))
  case h_2 heq => rw [(List.cons.inj heq).2]
  case h_3 heq => exact absurd (List.cons.inj heq).1 (by decide)
  case h_4 heq => exact absurd (List.cons.inj heq).1 (by decide)
  case h_5 hother _ _ => exact absurd rfl (hother rest)

lemma Numeral.head_text (n : Numeral) :
    ∃ c cs, n.text = c :: cs ∧ isDigit n.base.radix c = true := by
  obtain ⟨base, mark, ds, hmark, hne, hdigits⟩ := n
  cases base with
  | decimal =>
    obtain rfl := mem_singleton.mp hmark
    obtain ⟨c, cs, rfl⟩ := exists_cons_of_ne_nil hne
    exact ⟨c, cs, rfl, hdigits c mem_cons_self⟩
  | hexadecimal => rcases mem_pair.mp hmark with rfl | rfl <;> exact ⟨'0', _, rfl, rfl⟩
  | octal => rcases mem_pair.mp hmark with rfl | rfl <;> exact ⟨'0', _, rfl, rfl⟩

/-- No text begins with `>`. -/
theorem Nesting.head_text (x : Nesting) : ∃ c cs, x.text = c :: cs ∧ c ≠ '>' := by
  cases x with
  | numeral n =>
    obtain ⟨c, cs, htext, hdigit⟩ := n.head_text
    refine ⟨c, cs, htext, ?_⟩
    rintro rfl
    revert hdigit
    cases n.base <;> decide
  | minus blank inner => exact ⟨'-', _, rfl, by decide⟩
  | parens before inner after => exact ⟨'(', _, rfl, by decide⟩

/-- Nothing between a minus sign and the text after it makes an arrow. -/
theorem Nesting.head_blank_text (b : Blank) (x : Nesting) (rest : List Char) :
    ∀ c ∈ (b.text ++ (x.text ++ rest)).head?, c ≠ '>' := by
  obtain ⟨s, hs⟩ := b
  intro c hc
  cases s with
  | nil =>
    obtain ⟨c', cs, htext, hne⟩ := x.head_text
    rw [htext] at hc
    rwa [← some.inj hc]
  | cons c' s =>
    rw [← some.inj hc]
    rintro rfl
    exact absurd (hs '>' mem_cons_self) (by decide)

lemma closed_blank (b : Blank) (rest : List Char) : Closed (b.text ++ ')' :: rest) := by
  obtain ⟨s, hs⟩ := b
  intro c hc
  cases s with
  | nil => exact .inr (some.inj hc).symm
  | cons c' s => exact .inl (some.inj hc ▸ hs c' mem_cons_self)

/-- **The tokens of a text.** -/
theorem lexer_text (x : Nesting) (hpad : ¬x.core.Padded) {rest : List Char} (hrest : Closed rest) :
    lexer (x.text ++ rest) =
      if x.core.value ≤ 2 ^ 63 then (lexer rest).map (x.tokens ++ ·)
      else .error (.integerOverflow x.core.base.overflow) := by
  induction x generalizing rest with
  | numeral n =>
    obtain ⟨c, cs, htext, hdigit⟩ := n.head_text
    have htoken := (token_numeral n hpad hrest).trans (congrArg some (literalToken_eq n rest))
    change lexer (n.text ++ rest) = if n.value ≤ 2 ^ 63 then _ else _
    rw [htext, cons_append] at htoken ⊢
    rw [lexer_token (not_isWhiteSpace_of_isDigit hdigit) htoken]
    split
    next => rfl
    next => rfl
  | minus blank inner ih =>
    change lexer ('-' :: (blank.text ++ inner.text ++ rest)) = _
    rw [append_assoc, lexer_minus (inner.head_blank_text blank rest), lexer_blank, ih hpad hrest]
    change _ = if inner.core.value ≤ 2 ^ 63 then _ else _
    split
    next => cases lexer rest <;> rfl
    next => rfl
  | parens before inner after ih =>
    change lexer ('(' :: (before.text ++ (inner.text ++ (after.text ++ [')'])) ++ rest)) = _
    rw [lexer_lParen, append_assoc, lexer_blank, append_assoc, append_assoc,
      singleton_append, ih hpad (closed_blank after rest), lexer_blank, lexer_rParen]
    change _ = if inner.core.value ≤ 2 ^ 63 then _ else _
    split
    next =>
      cases lexer rest with
      | error e => rfl
      | ok toks => simp [Except.map, Nesting.tokens]
    next => rfl

/-! ## Padded numerals -/

lemma lexer_digit {c : Char} (h : isDigit 10 c = true) (cs : List Char) :
    (∃ e, lexer (c :: cs) = .error e) ∨ ∃ i toks, lexer (c :: cs) = .ok (.integer i :: toks) := by
  obtain ⟨base, read, htoken⟩ : ∃ base read, token (c :: cs) = some (literalToken base read) := by
    have hmarked : ∀ {lower upper base}, markedInt lower upper base (c :: cs) = none ∨
        ∃ read, markedInt lower upper base (c :: cs) = some (literalToken base read) := by
      intro lower upper base
      cases hm : markedInt lower upper base (c :: cs) with
      | none => exact .inl rfl
      | some r =>
        unfold markedInt at hm
        split at hm
        next =>
          split at hm
          next =>
            obtain ⟨read, -, hread⟩ := map_eq_some_iff.mp hm
            exact .inr ⟨read, congrArg some hread.symm⟩
          next => cases hm
        next => cases hm
    have hint : ∃ read, int (c :: cs) = some read := by
      unfold int
      split
      next => exact ⟨_, rfl⟩
      next =>
        refine ⟨_, if_neg ?_⟩
        rw [takeWhile_cons_of_pos h]
        exact cons_ne_nil _ _
    unfold token
    rcases hmarked with hhex | ⟨read, hhex⟩
    · rcases hmarked with hoct | ⟨read, hoct⟩
      · obtain ⟨read, hint⟩ := hint
        refine ⟨.decimal, read, ?_⟩
        rw [hexInt, octInt, hhex, hoct, none_or, none_or, intNum, hint]
        rfl
      · refine ⟨.octal, read, ?_⟩
        rw [hexInt, octInt, hhex, hoct, none_or, some_or]
    · refine ⟨.hexadecimal, read, ?_⟩
      rw [hexInt, hhex, some_or]
  have hlexer :=
    lexer_token (r := (literalToken base read).1) (not_isWhiteSpace_of_isDigit h) htoken
  rw [hlexer]
  unfold literalToken intToken
  dsimp only
  split
  next tok htok =>
    obtain ⟨i, rfl⟩ : ∃ i, tok = .integer i := by
      split at htok
      next =>
        split at htok
        next => exact ⟨_, (some.inj htok).symm⟩
        next =>
          split at htok
          next => exact ⟨_, (some.inj htok).symm⟩
          next => cases htok
      next => cases htok
    change (∃ e, (lexer read.2).map _ = _) ∨ _
    cases hrest : lexer read.2 with
    | error e => exact .inl ⟨e, rfl⟩
    | ok toks => exact .inr ⟨i, toks, rfl⟩
  next => exact .inl ⟨_, rfl⟩

/-- No operand is read, or an integer follows it. -/
def Stuck (r : Option (Expr × List Tok)) : Prop :=
  ∀ e rest, r = some (e, rest) → ∃ i toks, rest = .integer i :: toks

lemma lexer_padded (x : Nesting) (hpad : x.core.Padded) (rest : List Char) :
    (∃ e, lexer (x.text ++ rest) = .error e) ∨
      ∃ toks, lexer (x.text ++ rest) = .ok toks ∧ ∀ fuel, Stuck (operand fuel toks) := by
  induction x generalizing rest with
  | numeral n =>
    obtain ⟨base, mark, ds, hmark, hne, hdigits⟩ := n
    obtain ⟨rfl, c, cs, rfl⟩ := hpad
    obtain rfl := mem_singleton.mp hmark
    have hdigit : isDigit 10 c = true := hdigits c (mem_cons_of_mem _ mem_cons_self)
    have htoken : token ('0' :: c :: (cs ++ rest)) =
        some (.ok (.integer 0), c :: (cs ++ rest)) := by
      have hmarks : ∀ c' ∈ (c :: (cs ++ rest)).head?, c' ≠ 'x' ∧ c' ≠ 'X' ∧ c' ≠ 'o' ∧
          c' ≠ 'O' := by
        intro c' hc'
        obtain rfl := some.inj hc'
        refine ⟨?_, ?_, ?_, ?_⟩ <;> rintro rfl <;> revert hdigit <;> decide
      unfold token hexInt octInt
      rw [markedInt_of_ne fun c' hc' => ⟨(hmarks c' hc').1, (hmarks c' hc').2.1⟩,
        markedInt_of_ne fun c' hc' => ⟨(hmarks c' hc').2.2.1, (hmarks c' hc').2.2.2⟩]
      rfl
    change (∃ e, lexer ('0' :: c :: (cs ++ rest)) = _) ∨
        ∃ toks, lexer ('0' :: c :: (cs ++ rest)) = _ ∧ _
    rw [lexer_token (c := '0') (by decide) htoken]
    rcases lexer_digit hdigit (cs ++ rest) with ⟨e, he⟩ | ⟨i, toks, htoks⟩
    · exact .inl ⟨e, by rw [he]; rfl⟩
    · refine .inr ⟨.integer 0 :: .integer i :: toks, by rw [htoks]; rfl, fun fuel => ?_⟩
      cases fuel with
      | zero => exact fun _ _ hr => nomatch hr
      | succ fuel => exact fun _ _ hr => ⟨i, toks, (Prod.mk.inj (some.inj hr)).2.symm⟩
  | minus blank inner ih =>
    change (∃ e, lexer ('-' :: (blank.text ++ inner.text ++ rest)) = _) ∨
      ∃ toks, lexer ('-' :: (blank.text ++ inner.text ++ rest)) = _ ∧ _
    rw [append_assoc, lexer_minus (inner.head_blank_text blank rest), lexer_blank]
    rcases ih hpad rest with ⟨e, he⟩ | ⟨toks, htoks, hstuck⟩
    · exact .inl ⟨e, by rw [he]; rfl⟩
    · refine .inr ⟨.minus :: toks, by rw [htoks]; rfl, fun fuel => ?_⟩
      cases fuel with
      | zero => exact fun _ _ hr => nomatch hr
      | succ fuel =>
        intro e rest' hr
        obtain ⟨⟨e', rest''⟩, hinner, hpair⟩ := map_eq_some_iff.mp hr
        obtain ⟨-, rfl⟩ := Prod.mk.inj hpair
        exact hstuck fuel e' rest'' hinner
  | parens before inner after ih =>
    change
        (∃ e, lexer ('(' :: (before.text ++ (inner.text ++ (after.text ++ [')'])) ++ rest)) = _) ∨
      ∃ toks, lexer ('(' :: (before.text ++ (inner.text ++ (after.text ++ [')'])) ++ rest)) = _ ∧ _
    rw [lexer_lParen, append_assoc, lexer_blank, append_assoc]
    rcases ih hpad (after.text ++ [')'] ++ rest) with ⟨e, he⟩ | ⟨toks, htoks, hstuck⟩
    · exact .inl ⟨e, by rw [he]; rfl⟩
    · refine .inr ⟨.lParen :: toks, by rw [htoks]; rfl, fun fuel => ?_⟩
      cases fuel with
      | zero => exact fun _ _ hr => nomatch hr
      | succ fuel =>
        -- The parenthesis that would have to follow is an integer.
        intro e rest' hr
        unfold operand at hr
        split at hr
        next e' rest'' hinner =>
          obtain ⟨i, toks', heq⟩ := hstuck fuel _ _ hinner
          cases heq
        next => cases hr

/-! ## The expression of the tokens -/

/-- **The operand of the tokens.** -/
theorem operand_tokens (x : Nesting) {fuel : ℕ} (hfuel : x.tokens.length ≤ fuel) (rest : List Tok) :
    operand fuel (x.tokens ++ rest) = some (x.folded, rest) := by
  induction x generalizing fuel rest with
  | numeral n =>
    obtain ⟨fuel, rfl⟩ : ∃ k, fuel = k + 1 := ⟨fuel - 1, (Nat.succ_pred_eq_of_pos hfuel).symm⟩
    rfl
  | minus blank inner ih =>
    obtain ⟨fuel, rfl⟩ : ∃ k, fuel = k + 1 :=
      ⟨fuel - 1, (Nat.succ_pred_eq_of_pos (lt_of_lt_of_le (Nat.succ_pos _) hfuel)).symm⟩
    change (operand fuel (inner.tokens ++ rest)).map _ = _
    rw [ih (Nat.le_of_succ_le_succ hfuel)]
    rfl
  | parens before inner after ih =>
    obtain ⟨fuel, rfl⟩ : ∃ k, fuel = k + 1 :=
      ⟨fuel - 1, (Nat.succ_pred_eq_of_pos (lt_of_lt_of_le (Nat.succ_pos _) hfuel)).symm⟩
    have hlen : inner.tokens.length ≤ fuel := by
      have hsum : (inner.tokens ++ [Tok.rParen]).length ≤ fuel := Nat.le_of_succ_le_succ hfuel
      rw [length_append] at hsum
      omega
    change (match operand fuel (inner.tokens ++ [Tok.rParen] ++ rest) with
      | some (e, .rParen :: rest) => some (parenExpr e, rest)
      | _ => none) = _
    rw [append_assoc, ih hlen]
    rfl

/-- **What is read.** -/
theorem readExpr_text (x : Nesting) (hpad : ¬x.core.Padded) :
    readExpr x.text = if x.core.value ≤ 2 ^ 63 then .ok x.folded
      else .error (.integerOverflow x.core.base.overflow) := by
  have hlexer := @lexer_text x hpad [] fun _ hc => nomatch hc
  rw [append_nil] at hlexer
  unfold readExpr
  rw [hlexer]
  split
  next =>
    rw [lexer_nil]
    change expression (x.tokens ++ []) = _
    unfold expression
    rw [operand_tokens x (by rw [append_nil]; omega)]
  next => rfl

lemma readExpr_padded (x : Nesting) (hpad : x.core.Padded) : ∃ e, readExpr x.text = .error e := by
  have hlexer := lexer_padded x hpad []
  rw [append_nil] at hlexer
  unfold readExpr
  rcases hlexer with ⟨e, he⟩ | ⟨toks, htoks, hstuck⟩
  · exact ⟨e, by rw [he]; rfl⟩
  · refine ⟨.unexpected, ?_⟩
    rw [htoks]
    change expression toks = _
    unfold expression
    split
    next e heq =>
      obtain ⟨i, toks', hrest⟩ := hstuck _ _ _ heq
      cases hrest
    next => rfl

/-! ## The value of an integer -/

namespace Nesting

/-- The exact value is the magnitude with the sign of the minus signs. -/
theorem value_eq (x : Nesting) :
    x.value = if Even x.minuses then (x.core.value : ℤ) else -x.core.value := by
  induction x with
  | numeral n => exact (if_pos Even.zero).symm
  | minus blank inner ih =>
    change -inner.value = if Even (inner.minuses + 1) then (inner.core.value : ℤ)
        else -inner.core.value
    rw [ih]
    by_cases heven : Even inner.minuses
    · rw [if_pos heven, if_neg (Nat.even_add_one.not.mpr (not_not.mpr heven))]
    · rw [if_neg heven, if_pos (Nat.even_add_one.mpr heven), neg_neg]
  | parens before inner after ih => exact ih

lemma natAbs_value (x : Nesting) : x.value.natAbs = x.core.value := by
  rw [value_eq]
  split <;> simp

end Nesting

/-- Negation does not leave the range of the literals below the magnitude `2 ^ 63`. -/
theorem negate_int (i : ℤ) :
    negate (.literal (.int (.ofInt i))) = .literal (.int (.ofInt (-i))) := by
  change Expr.literal (.int (-Int64.ofInt i)) = _
  rw [Int64.neg_ofInt]

/-- **What the signs are folded to.** Below `2 ^ 63` it is the exact value; from `2 ^ 63` the first
sign makes the least integer, which all others leave as it is. -/
theorem folded_eq (x : Nesting) (h : x.core.value ≤ 2 ^ 63) : x.folded =
    if x.core.value = 2 ^ 63 then
      if x.minuses = 0 then negMinInt else .literal (.int .minValue)
    else .literal (.int (.ofInt x.value)) := by
  induction x with
  | numeral n =>
    change litExpr (.int (.ofNat n.value)) = if n.value = 2 ^ 63 then _ else _
    split
    next hmax => rw [hmax]; rfl
    next hne =>
      have hlt : n.value < 2 ^ 63 := lt_of_le_of_ne h hne
      unfold litExpr
      rw [← Int64.ofInt_eq_ofNat]
      refine if_neg fun hmin => ?_
      have htoInt := congrArg Int64.toInt hmin
      rw [Int64.toInt_ofInt_of_le (by omega) (by omega)] at htoInt
      have hleast : Int64.minValue.toInt = -2 ^ 63 := by decide
      omega
  | minus blank inner ih =>
    change negate inner.folded = if inner.core.value = 2 ^ 63 then
      if inner.minuses + 1 = 0 then _ else _ else .literal (.int (.ofInt (-inner.value)))
    rw [ih h]
    split
    next hmax =>
      split
      next => rfl
      next =>
        -- The least integer is its own negation.
        change Expr.literal (.int (-Int64.minValue)) = _
        rw [if_neg (Nat.succ_ne_zero _)]
        rfl
    next => exact negate_int _
  | parens before inner after ih =>
    change parenExpr inner.folded = if inner.core.value = 2 ^ 63 then
      if inner.minuses = 0 then _ else _ else .literal (.int (.ofInt inner.value))
    rw [ih h]
    split
    next => split <;> rfl
    next => rfl

lemma evaluates_literal_iff {l : Literal} {r : Except String Json} :
    Evaluates (.literal l) r ↔ r = .ok l.toValue := by
  constructor
  · rintro ⟨⟩
    rfl
  · rintro rfl
    exact .literal l

lemma toValue_int_injective {i j : Int64} (h : (Literal.int i).toValue = (Literal.int j).toValue) :
    i = j := by
  have hvalue : intValue i = intValue j := Json.ofI64_injective h
  exact Int64.toInt_inj.mp (congrArg Subtype.val hvalue)

namespace Nesting

variable {x : Nesting}

lemma exact_of_padded (hpad : x.core.Padded) : x.Exact := by
  intro e he
  obtain ⟨e', he'⟩ := readExpr_padded x hpad
  exact nomatch he.symm.trans he'

/-- **When the exact value is read.** -/
theorem exact_iff (x : Nesting) : x.Exact ↔ ¬(¬x.core.Padded ∧ x.Wraps) := by
  by_cases hpad : x.core.Padded
  · exact iff_of_true (exact_of_padded hpad) fun h => h.1 hpad
  have hread := readExpr_text x hpad
  by_cases hfit : x.core.value ≤ 2 ^ 63
  · rw [if_pos hfit, folded_eq x hfit] at hread
    have habs := x.natAbs_value
    by_cases hmax : x.core.value = 2 ^ 63
    · rw [if_pos hmax] at hread
      by_cases hzero : x.minuses = 0
      · -- The marker is left, and raises.
        rw [if_pos hzero] at hread
        refine iff_of_true (fun e he => ?_) fun h => by
          have hpos := h.2.2.1
          omega
        obtain rfl := Except.ok.inj (hread.symm.trans he)
        exact ⟨_, .marker, fun v hv => nomatch hv⟩
      · rw [if_neg hzero] at hread
        have hiff : x.Exact ↔ x.value = -2 ^ 63 := by
          have hleast : Int64.minValue.toInt = -2 ^ 63 := by decide
          constructor
          · intro h
            obtain ⟨r, hr, hvalue⟩ := h _ hread
            obtain ⟨i, hi, heq⟩ := hvalue _ (evaluates_literal_iff.mp hr)
            rw [← hi, ← toValue_int_injective heq, hleast]
          · intro h e he
            obtain rfl := Except.ok.inj (hread.symm.trans he)
            refine ⟨_, .literal _, fun v hv => ⟨.minValue, hleast.trans h.symm, ?_⟩⟩
            exact (Except.ok.inj hv).symm
        rw [hiff, x.value_eq, hmax]
        constructor
        · rintro hvalue ⟨-, -, -, heven⟩
          rw [if_pos heven] at hvalue
          omega
        · intro h
          exact if_neg fun heven => h ⟨hpad, hmax, Nat.pos_of_ne_zero hzero, heven⟩
    · rw [if_neg hmax] at hread
      refine iff_of_true (fun e he => ?_) fun h => hmax h.2.1
      obtain rfl := Except.ok.inj (hread.symm.trans he)
      refine ⟨_, .literal _, fun v hv => ⟨.ofInt x.value, ?_, (Except.ok.inj hv).symm⟩⟩
      exact Int64.toInt_ofInt_of_le (by omega) (by omega)
  · rw [if_neg hfit] at hread
    refine iff_of_true (fun e he => nomatch he.symm.trans hread) fun h => ?_
    have hmax := h.2.1
    omega

/-- **Which values in range are read.** -/
theorem accepted_iff (x : Nesting) (hminuses : x.minuses ≤ 1) (hlow : -2 ^ 63 ≤ x.value)
    (hhigh : x.value < 2 ^ 63) : x.Accepted ↔ ¬x.core.Padded := by
  constructor
  · rintro ⟨e, he, -⟩ hpad
    obtain ⟨e', he'⟩ := readExpr_padded x hpad
    exact nomatch he.symm.trans he'
  · intro hpad
    have habs := x.natAbs_value
    have hfit : x.core.value ≤ 2 ^ 63 := by omega
    have hread := readExpr_text x hpad
    rw [if_pos hfit, folded_eq x hfit] at hread
    split at hread
    next hmax =>
      have hneg : x.minuses ≠ 0 := by
        intro hzero
        have hvalue := x.value_eq
        rw [hzero, if_pos Even.zero] at hvalue
        omega
      rw [if_neg hneg] at hread
      refine ⟨_, hread, .minValue, ?_, .literal _⟩
      have hleast : Int64.minValue.toInt = -2 ^ 63 := by decide
      omega
    next => exact ⟨_, hread, .ofInt x.value, Int64.toInt_ofInt_of_le hlow hhigh, .literal _⟩

end Nesting

/-- **When integers keep their values.** A magnitude of `2 ^ 63` under minus signs that cancel out
is read as the least integer; nothing else is read as another number. -/
theorem readExpr_exact_iff (x : Nesting) :
    (x.Kept ↔ x.core.Padded ∨ ¬x.Wraps) ∧ (x.core.Padded → ∃ e, readExpr x.text = .error e) := by
  refine ⟨⟨fun h => ?_, fun h => ⟨?_, x.accepted_iff⟩⟩, readExpr_padded x⟩
  · by_contra hnot
    exact (x.exact_iff.mp h.exact) (not_or.mp hnot |>.imp_right not_not.mp)
  · exact x.exact_iff.mpr fun hwraps => h.elim hwraps.1 fun hnot => hnot hwraps.2

section Example

lemma isWhiteSpace_nil : ∀ c ∈ ([] : List Char), Texts.isWhiteSpace c = true :=
  fun _ h => nomatch h

/-- Nothing between two tokens. -/
def Blank.empty : Blank := ⟨[], isWhiteSpace_nil⟩

lemma limit_mark : ['0', 'x'] ∈ Base.hexadecimal.marks := by decide

lemma limit_digits : ∀ c ∈ '8' :: List.replicate 15 '0', isDigit 16 c = true :=
  List.all_eq_true.mp (by decide)

lemma limit_digits_ne_nil : '8' :: List.replicate 15 '0' ≠ [] := cons_ne_nil _ _

def limit : Numeral :=
  ⟨.hexadecimal, ['0', 'x'], '8' :: List.replicate 15 '0', limit_mark, limit_digits_ne_nil,
    limit_digits⟩

lemma seven_mark : [] ∈ Base.decimal.marks := by decide

lemma seven_digits : ∀ c ∈ ['0', '7'], isDigit 10 c = true := List.all_eq_true.mp (by decide)

lemma seven_digits_ne_nil : ['0', '7'] ≠ [] := cons_ne_nil _ _

def seven : Numeral := ⟨.decimal, [], ['0', '7'], seven_mark, seven_digits_ne_nil, seven_digits⟩

lemma limit_not_padded : ¬limit.Padded := fun h => nomatch h.1

lemma value_limit : limit.value = 2 ^ 63 := by
  decide +kernel

/-- The least integer is read, a padded seven is not. -/
theorem readExpr_exact_iff_limit :
    (Nesting.minus .empty (.parens .empty (.numeral limit) .empty)).Kept ∧
      ∃ e, readExpr (Nesting.numeral seven).text = .error e :=
  ⟨(readExpr_exact_iff (.minus .empty (.parens .empty (.numeral limit) .empty))).1.mpr
      (.inr fun h => absurd h.2.2 (by decide)),
    (readExpr_exact_iff (.numeral seven)).2 ⟨rfl, '7', [], rfl⟩⟩

/-- Two minus signs before the magnitude of the least integer read the least integer. -/
theorem readExpr_limit_twice :
    ¬(Nesting.minus .empty (.minus .empty (.numeral limit))).Exact ∧
      readExpr "--0x8000000000000000".toList = .ok (.literal (.int .minValue)) := by
  refine ⟨fun h => (Nesting.exact_iff _).mp h ⟨limit_not_padded, value_limit, by decide,
    by decide⟩, ?_⟩
  have hmax : (Nesting.minus .empty (.minus .empty (.numeral limit))).core.value = 2 ^ 63 :=
    value_limit
  have hread := readExpr_text (.minus .empty (.minus .empty (.numeral limit))) limit_not_padded
  rw [if_pos hmax.le, folded_eq _ hmax.le, if_pos hmax] at hread
  exact hread

end Example

end IssunDB.Cypher.IntegerLiterals
