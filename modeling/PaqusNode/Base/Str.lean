import Mathlib.Data.List.DropRight
import Mathlib.Data.List.TakeWhile

/-!
# PaqusNode.Base.Str

The methods of Rust's slices and strings that search, split and read text,
over lists of bytes or characters.  Each is defined as the standard library
computes it, and comes with what its result means: the first occurrence of a
pattern, the lines of a text, a numeral between blanks.
-/

namespace PaqusNode

namespace Str

/-! ## The first occurrence of a pattern -/

section First

variable {α : Type} {pattern text before after before' after' : List α}

/-- `before` and `after` surround the first occurrence of `pattern`. -/
structure First (pattern text before after : List α) : Prop where
  eq : text = before ++ pattern ++ after
  first : ∀ before' after', text = before' ++ pattern ++ after' → before.length ≤ before'.length

theorem First.unique (h : First pattern text before after)
    (h' : First pattern text before' after') : before = before' ∧ after = after' := by
  have hlength : before.length = before'.length :=
    Nat.le_antisymm (h.first _ _ h'.eq) (h'.first _ _ h.eq)
  have heq : before ++ pattern ++ after = before' ++ pattern ++ after' := h.eq ▸ h'.eq
  obtain ⟨hfront, hafter⟩ := List.append_inj heq (by simp [hlength])
  exact ⟨(List.append_inj hfront hlength).1, hafter⟩

/-- There is one first occurrence only. -/
theorem First.some_eq_iff (h : First pattern text before after) :
    some (before, after) = some (before', after') ↔ First pattern text before' after' := by
  constructor
  · intro heq
    cases heq
    exact h
  · intro h'
    obtain ⟨rfl, rfl⟩ := h.unique h'
    rfl

theorem First.length_eq (h : First pattern text before after) :
    text.length = before.length + pattern.length + after.length := by
  rw [h.eq, List.length_append, List.length_append]

/-- Text that goes on after the pattern does not move it. -/
theorem First.append (h : First pattern text before after) (more : List α) :
    First pattern (text ++ more) before (after ++ more) := by
  refine ⟨by rw [h.eq, List.append_assoc], fun before' after' heq => ?_⟩
  by_contra hlt
  -- an earlier occurrence would end within the text
  have hpre : before' ++ pattern <+: text := by
    refine List.prefix_of_prefix_length_le ⟨after', heq.symm⟩ (List.prefix_append _ _) ?_
    rw [h.length_eq, List.length_append]
    omega
  obtain ⟨rest, hrest⟩ := hpre
  exact hlt (h.first before' rest hrest.symm)

theorem first_nil (h : pattern <+: text) : ∃ after, First pattern text [] after := by
  obtain ⟨after, rfl⟩ := h
  exact ⟨after, by simp, fun _ _ _ => Nat.zero_le _⟩

/-- The pattern does not start at the first character, so it comes later. -/
theorem first_cons_iff {a : α} (hhead : ¬pattern <+: a :: text) :
    First pattern (a :: text) before after ↔
      ∃ before', before = a :: before' ∧ First pattern text before' after := by
  constructor
  · rintro ⟨heq, hfirst⟩
    cases before with
    | nil => exact absurd ⟨after, heq.symm⟩ hhead
    | cons b before =>
        obtain ⟨rfl, htext⟩ := List.cons.inj heq
        refine ⟨before, rfl, htext, fun before' after' h => ?_⟩
        have := hfirst (a :: before') after' (by rw [h]; rfl)
        simpa using this
  · rintro ⟨before, rfl, heq, hfirst⟩
    refine ⟨by rw [heq]; rfl, fun before' after' h => ?_⟩
    cases before' with
    | nil => exact absurd ⟨after', h.symm⟩ hhead
    | cons b before' =>
        obtain ⟨-, htext⟩ := List.cons.inj h
        have := hfirst before' after' htext
        simpa using this

/-- `slice::windows`. -/
def windows (size : Nat) (text : List α) : List (List α) :=
  (List.range (text.length + 1 - size)).map fun i => (text.drop i).take size

/-- The pattern stands at position `i`. -/
theorem window_eq_iff {i : Nat} (hi : i < text.length + 1 - pattern.length) :
    (text.drop i).take pattern.length = pattern ↔
      ∃ before after, text = before ++ pattern ++ after ∧ before.length = i := by
  constructor
  · intro h
    refine ⟨text.take i, (text.drop i).drop pattern.length, ?_, ?_⟩
    · conv_rhs => rw [List.append_assoc]; arg 2; arg 1; rw [← h]
      rw [List.take_append_drop, List.take_append_drop]
    · rw [List.length_take]
      omega
  · rintro ⟨before, after, rfl, rfl⟩
    rw [List.append_assoc, List.drop_left, List.take_left]

variable [DecidableEq α]

/-- `str::split_once`. -/
def splitOnce (pattern : List α) : List α → Option (List α × List α)
  | [] => if pattern = [] then some ([], []) else none
  | a :: text =>
      if pattern <+: a :: text then some ([], (a :: text).drop pattern.length)
      else (splitOnce pattern text).map fun (before, after) => (a :: before, after)

/-- `split_once` cuts at the first occurrence of the pattern. -/
theorem splitOnce_eq_some :
    splitOnce pattern text = some (before, after) ↔ First pattern text before after := by
  induction text generalizing before with
  | nil =>
      rw [splitOnce]
      split
      · next hpattern =>
          subst hpattern
          exact First.some_eq_iff ⟨rfl, fun _ _ _ => Nat.zero_le _⟩
      · next hpattern =>
          refine ⟨nofun, fun h => absurd ?_ hpattern⟩
          have hnil := h.eq.symm
          simp only [List.append_eq_nil_iff] at hnil
          exact hnil.1.2
  | cons a text ih =>
      rw [splitOnce]
      split
      · next hhead =>
          obtain ⟨rest, hfirst⟩ := first_nil hhead
          have hdrop : (a :: text).drop pattern.length = rest := by
            rw [hfirst.eq, List.nil_append, List.drop_left]
          rw [hdrop]
          exact hfirst.some_eq_iff
      · next hhead =>
          rw [first_cons_iff hhead, Option.map_eq_some_iff]
          constructor
          · rintro ⟨⟨before', after'⟩, h, heq⟩
            cases heq
            exact ⟨before', rfl, ih.mp h⟩
          · rintro ⟨before', rfl, h⟩
            exact ⟨(before', after), ih.mpr h, rfl⟩

/-- Searching the windows for the pattern finds its first occurrence. -/
theorem windows_position {i : Nat} :
    (windows pattern.length text).findIdx? (· == pattern) = some i ↔
      ∃ before after, First pattern text before after ∧ before.length = i := by
  have hwindow : ∀ before' after', text = before' ++ pattern ++ after' →
      before'.length < text.length + 1 - pattern.length := by
    rintro before' after' rfl
    rw [List.length_append, List.length_append]
    omega
  rw [List.findIdx?_eq_some_iff_getElem]
  simp only [windows, List.length_map, List.length_range, List.getElem_map, List.getElem_range,
    beq_iff_eq]
  constructor
  · rintro ⟨hi, hat, hbefore⟩
    obtain ⟨before, after, heq, rfl⟩ := (window_eq_iff hi).mp hat
    refine ⟨before, after, ⟨heq, fun before' after' heq' => ?_⟩, rfl⟩
    by_contra hlt
    exact hbefore before'.length (by omega)
      ((window_eq_iff (hwindow _ _ heq')).mpr ⟨before', after', heq', rfl⟩)
  · rintro ⟨before, after, hfirst, rfl⟩
    have hi := hwindow _ _ hfirst.eq
    refine ⟨hi, (window_eq_iff hi).mpr ⟨before, after, hfirst.eq, rfl⟩, fun j hj hat => ?_⟩
    obtain ⟨before', after', heq', rfl⟩ := (window_eq_iff (by omega)).mp hat
    have := hfirst.first _ _ heq'
    omega

end First

/-! ## Lines -/

/-- `str::split_inclusive` at line feeds. -/
def splitInclusive : List Char → List (List Char)
  | [] => []
  | '\n' :: text => ['\n'] :: splitInclusive text
  | c :: text =>
      match splitInclusive text with
      | [] => [[c]]
      | piece :: pieces => (c :: piece) :: pieces

/-- `str::strip_suffix` of one character. -/
def stripSuffix (c : Char) (text : List Char) : Option (List Char) :=
  if text.getLast? = some c then some text.dropLast else none

/-- A piece without its line feed, and without a carriage return before that. -/
def stripLine (piece : List Char) : List Char :=
  match stripSuffix '\n' piece with
  | none => piece
  | some line => (stripSuffix '\r' line).getD line

/-- `str::lines`. -/
def lines (text : List Char) : List (List Char) := (splitInclusive text).map stripLine

/-- What the lines of a text are: they end in a line feed or in a carriage
return and a line feed, and the last one may end with the text. -/
inductive Lines : List Char → List (List Char) → Prop
  | nil : Lines [] []
  | last {line : List Char} (hline : '\n' ∉ line) (hne : line ≠ []) : Lines line [line]
  | lf {line text : List Char} {rest : List (List Char)} (hline : '\n' ∉ line)
      (hcr : line.getLast? ≠ some '\r') (h : Lines text rest) :
      Lines (line ++ '\n' :: text) (line :: rest)
  | crlf {line text : List Char} {rest : List (List Char)} (hline : '\n' ∉ line)
      (h : Lines text rest) : Lines (line ++ '\r' :: '\n' :: text) (line :: rest)

/-- Without a line feed the text is one piece. -/
theorem splitInclusive_of_not_mem {line : List Char} (hline : '\n' ∉ line) (hne : line ≠ []) :
    splitInclusive line = [line] := by
  induction line with
  | nil => exact absurd rfl hne
  | cons c line ih =>
      obtain ⟨hc, hline⟩ := List.ne_and_not_mem_of_not_mem_cons hline
      rw [splitInclusive.eq_3 c line (fun h => hc h.symm)]
      cases line with
      | nil => rfl
      | cons d line => rw [ih hline (List.cons_ne_nil _ _)]

/-- The first line feed ends the first piece. -/
theorem splitInclusive_append {line : List Char} (hline : '\n' ∉ line) (text : List Char) :
    splitInclusive (line ++ '\n' :: text) = (line ++ ['\n']) :: splitInclusive text := by
  induction line with
  | nil => rfl
  | cons c line ih =>
      obtain ⟨hc, hline⟩ := List.ne_and_not_mem_of_not_mem_cons hline
      rw [List.cons_append, splitInclusive.eq_3 c _ (fun h => hc h.symm), ih hline]
      rfl

theorem stripSuffix_concat (c d : Char) (text : List Char) :
    stripSuffix c (text ++ [d]) = if d = c then some text else none := by
  rw [stripSuffix, List.getLast?_concat, List.dropLast_concat]
  simp only [Option.some.injEq]

theorem stripLine_of_not_mem {line : List Char} (hline : '\n' ∉ line) : stripLine line = line := by
  have hlast : line.getLast? ≠ some '\n' := fun h => hline (List.mem_of_getLast? h)
  rw [stripLine, stripSuffix, if_neg hlast]

theorem stripLine_lf {line : List Char} (hcr : line.getLast? ≠ some '\r') :
    stripLine (line ++ ['\n']) = line := by
  rw [stripLine, stripSuffix_concat, if_pos rfl]
  simp only [stripSuffix, if_neg hcr, Option.getD_none]

theorem stripLine_crlf (line : List Char) : stripLine (line ++ ['\r'] ++ ['\n']) = line := by
  rw [stripLine, stripSuffix_concat, if_pos rfl]
  simp only [stripSuffix_concat, if_true, Option.getD_some]

/-- The lines that `str::lines` finds. -/
theorem Lines.lines_eq {text : List Char} {rest : List (List Char)} (h : Lines text rest) :
    lines text = rest := by
  induction h with
  | nil => rfl
  | last hline hne =>
      rw [lines, splitInclusive_of_not_mem hline hne, List.map_singleton,
        stripLine_of_not_mem hline]
  | lf hline hcr _ ih =>
      rw [lines, splitInclusive_append hline, List.map_cons, stripLine_lf hcr, ← lines, ih]
  | @crlf line text rest hline _ ih =>
      have hcr : '\n' ∉ line ++ ['\r'] := by simp [hline]
      have hpiece : line ++ '\r' :: '\n' :: text = line ++ ['\r'] ++ '\n' :: text := by simp
      rw [lines, hpiece, splitInclusive_append hcr, List.map_cons, stripLine_crlf, ← lines, ih]

/-- One more character in front of a text belongs to its first line, unless
it is a line feed. -/
theorem Lines.cons {text : List Char} {rest : List (List Char)} (h : Lines text rest) {c : Char}
    (hc : c ≠ '\n') : ∃ rest', Lines (c :: text) rest' := by
  have hmem : ∀ {line : List Char}, '\n' ∉ line → '\n' ∉ c :: line := fun hline =>
    List.not_mem_cons_of_ne_of_not_mem hc.symm hline
  cases h with
  | nil => exact ⟨_, .last (hmem List.not_mem_nil) (List.cons_ne_nil c [])⟩
  | last hline hne => exact ⟨_, .last (hmem hline) (List.cons_ne_nil c _)⟩
  | crlf hline h => exact ⟨_, .crlf (hmem hline) h⟩
  | @lf line text rest hline hcr h =>
      cases line with
      | nil =>
          by_cases hreturn : c = '\r'
          · subst hreturn
            exact ⟨_, Lines.crlf List.not_mem_nil h⟩
          · exact ⟨_, Lines.lf (hmem hline) (by simpa using hreturn) h⟩
      | cons d line =>
          exact ⟨_, Lines.lf (hmem hline) (by rwa [List.getLast?_cons_cons]) h⟩

/-- Every text has lines. -/
theorem exists_lines (text : List Char) : ∃ rest, Lines text rest := by
  induction text with
  | nil => exact ⟨[], .nil⟩
  | cons c text ih =>
      obtain ⟨rest, h⟩ := ih
      by_cases hc : c = '\n'
      · subst hc
        exact ⟨_, Lines.lf List.not_mem_nil nofun h⟩
      · exact h.cons hc

/-- `lines` gives the lines. -/
theorem lines_eq_iff {text : List Char} {rest : List (List Char)} :
    lines text = rest ↔ Lines text rest := by
  constructor
  · rintro rfl
    obtain ⟨rest, h⟩ := exists_lines text
    rwa [h.lines_eq]
  · exact Lines.lines_eq

/-! ## Numerals -/

/-- `char::is_whitespace`: the code points with the Unicode property
`White_Space`. -/
def isWhitespace (c : Char) : Bool :=
  (0x09 ≤ c.toNat && c.toNat ≤ 0x0D) || c.toNat == 0x20 || c.toNat == 0x85 || c.toNat == 0xA0 ||
    c.toNat == 0x1680 || (0x2000 ≤ c.toNat && c.toNat ≤ 0x200A) || c.toNat == 0x2028 ||
    c.toNat == 0x2029 || c.toNat == 0x202F || c.toNat == 0x205F || c.toNat == 0x3000

/-- `str::trim`. -/
def trim (text : List Char) : List Char :=
  (text.dropWhile isWhitespace).rdropWhile isWhitespace

/-- `str::eq_ignore_ascii_case`. -/
def eqIgnoreAsciiCase (a b : List Char) : Bool := a.map Char.toLower == b.map Char.toLower

/-- `char::to_digit` to the base ten. -/
def toDigit (c : Char) : Option Nat := if c.isDigit then some (c.toNat - '0'.toNat) else none

/-- `checked_mul` and `checked_add` of an unsigned type whose largest value is
`max`. -/
def checked (max n : Nat) : Option Nat := if n ≤ max then some n else none

/-- One round of the loop of `from_str_radix`. -/
def parseDigit (max value : Nat) (c : Char) : Option Nat := do
  let scaled ← checked max (value * 10)
  let digit ← toDigit c
  checked max (scaled + digit)

/-- The loop of `from_str_radix`. -/
def parseDigits (max : Nat) (digits : List Char) : Option Nat :=
  digits.foldlM (parseDigit max) 0

/-- `str::parse` to an unsigned type whose largest value is `max`. -/
def parse (max : Nat) : List Char → Option Nat
  | [] => none
  | ['+'] => none
  | ['-'] => none
  | '+' :: digits => parseDigits max digits
  | digits => parseDigits max digits

/-- The text of the `ParseIntError` that the loop stops with: a digit is looked
at before the number is. -/
def digitsError (max : Nat) : Nat → List Char → String
  | _, [] => ""
  | value, c :: digits =>
      match toDigit c with
      | none => "invalid digit found in string"
      | some digit =>
          if value * 10 + digit ≤ max then digitsError max (value * 10 + digit) digits
          else "number too large to fit in target type"

/-- The text of the `ParseIntError` of a text that is not parsed. -/
def parseError (max : Nat) : List Char → String
  | [] => "cannot parse integer from empty string"
  | ['+'] => "invalid digit found in string"
  | ['-'] => "invalid digit found in string"
  | '+' :: digits => digitsError max 0 digits
  | digits => digitsError max 0 digits

/-- `str::parse` with its error. -/
def parseInt (max : Nat) (text : String) : Except String Nat :=
  match parse max text.toList with
  | some n => .ok n
  | none => .error (parseError max text.toList)

/-- The value of a string of decimal digits. -/
def decimalFrom (value : Nat) (digits : List Char) : Nat :=
  digits.foldl (fun value c => value * 10 + (c.toNat - '0'.toNat)) value

/-- A decimal numeral, perhaps with a plus sign, of a value up to `max`. -/
def Numeral (max : Nat) (text : List Char) (n : Nat) : Prop :=
  ∃ digits, (text = digits ∨ text = '+' :: digits) ∧ digits ≠ [] ∧ (∀ c ∈ digits, c.isDigit) ∧
    decimalFrom 0 digits = n ∧ n ≤ max

theorem decimalFrom_cons (value : Nat) (c : Char) (digits : List Char) :
    decimalFrom value (c :: digits) = decimalFrom (value * 10 + (c.toNat - '0'.toNat)) digits := by
  rw [decimalFrom, List.foldl_cons, ← decimalFrom]

theorem le_decimalFrom (value : Nat) (digits : List Char) : value ≤ decimalFrom value digits := by
  induction digits generalizing value with
  | nil => exact Nat.le_refl value
  | cons c digits ih =>
      have := ih (value * 10 + (c.toNat - '0'.toNat))
      rw [decimalFrom_cons]
      omega

/-- A digit is read as long as the number stays in range. -/
theorem parseDigit_eq_some {max value value' : Nat} {c : Char} :
    parseDigit max value c = some value' ↔
      c.isDigit ∧ value * 10 + (c.toNat - '0'.toNat) = value' ∧ value' ≤ max := by
  simp only [parseDigit, checked, toDigit, Option.bind_eq_bind, Option.bind_eq_some_iff,
    Option.ite_none_right_eq_some, Option.some.injEq]
  constructor
  · rintro ⟨_, ⟨-, rfl⟩, _, ⟨hc, rfl⟩, hmax, rfl⟩
    exact ⟨hc, rfl, hmax⟩
  · rintro ⟨hc, rfl, hmax⟩
    exact ⟨_, ⟨by omega, rfl⟩, _, ⟨hc, rfl⟩, hmax, rfl⟩

/-- The loop reads the digits to their value; no round overflows unless the
whole does. -/
theorem foldlM_parseDigit {max value n : Nat} (hvalue : value ≤ max) (digits : List Char) :
    digits.foldlM (parseDigit max) value = some n ↔
      (∀ c ∈ digits, c.isDigit) ∧ decimalFrom value digits = n ∧ n ≤ max := by
  induction digits generalizing value with
  | nil =>
      simp only [List.foldlM_nil, Option.pure_def, Option.some.injEq, decimalFrom, List.foldl_nil]
      constructor
      · rintro rfl
        exact ⟨nofun, rfl, hvalue⟩
      · exact fun h => h.2.1
  | cons c digits ih =>
      rw [List.foldlM_cons, Option.bind_eq_bind, Option.bind_eq_some_iff, decimalFrom_cons,
        List.forall_mem_cons]
      constructor
      · rintro ⟨value', hround, h⟩
        obtain ⟨hc, rfl, hmax⟩ := parseDigit_eq_some.mp hround
        obtain ⟨hdigits, hn⟩ := (ih hmax).mp h
        exact ⟨⟨hc, hdigits⟩, hn⟩
      · rintro ⟨⟨hc, hdigits⟩, rfl, hn⟩
        have hmax := le_decimalFrom (value * 10 + (c.toNat - '0'.toNat)) digits
        refine ⟨_, parseDigit_eq_some.mpr ⟨hc, rfl, by omega⟩, (ih (by omega)).mpr ?_⟩
        exact ⟨hdigits, rfl, hn⟩

theorem parseDigits_eq_some {max n : Nat} {digits : List Char} :
    parseDigits max digits = some n ↔
      (∀ c ∈ digits, c.isDigit) ∧ decimalFrom 0 digits = n ∧ n ≤ max :=
  foldlM_parseDigit (Nat.zero_le max) digits

/-- `parse` reads the numerals and nothing else. -/
theorem parse_eq_some {max n : Nat} {text : List Char} :
    parse max text = some n ↔ Numeral max text n := by
  unfold parse
  split
  · refine ⟨nofun, ?_⟩
    rintro ⟨digits, rfl | h, hne, -⟩
    · exact absurd rfl hne
    · cases h
  · refine ⟨nofun, ?_⟩
    rintro ⟨digits, rfl | h, hne, hdigits, -⟩
    · exact absurd (hdigits '+' List.mem_cons_self) (by decide)
    · cases h
      exact absurd rfl hne
  · refine ⟨nofun, ?_⟩
    rintro ⟨digits, rfl | h, hne, hdigits, -⟩
    · exact absurd (hdigits '-' List.mem_cons_self) (by decide)
    · cases h
  · next digits hne =>
      rw [parseDigits_eq_some]
      constructor
      · rintro ⟨hdigits, h⟩
        exact ⟨digits, .inr rfl, fun h => hne h, hdigits, h⟩
      · rintro ⟨digits', rfl | h, -, hdigits, hn⟩
        · exact absurd (hdigits '+' List.mem_cons_self) (by decide)
        · cases h
          exact ⟨hdigits, hn⟩
  · next hne _ _ hplus =>
      rw [parseDigits_eq_some]
      constructor
      · rintro ⟨hdigits, h⟩
        exact ⟨text, .inl rfl, fun h => hne h, hdigits, h⟩
      · rintro ⟨digits', rfl | h, -, hdigits, hn⟩
        · exact ⟨hdigits, hn⟩
        · exact absurd h (hplus _)

/-- The blanks that `trim` takes off. -/
theorem eq_append_trim (text : List Char) : ∃ left right, text = left ++ trim text ++ right ∧
    (∀ c ∈ left, isWhitespace c) ∧ ∀ c ∈ right, isWhitespace c := by
  refine ⟨text.takeWhile isWhitespace, (text.dropWhile isWhitespace).rtakeWhile isWhitespace, ?_,
    fun c hc => List.mem_takeWhile_imp hc, fun c hc => List.mem_rtakeWhile_imp hc⟩
  rw [List.append_assoc, trim, List.rdropWhile_append_rtakeWhile, List.takeWhile_append_dropWhile]

/-- Text without blanks is what remains when blanks around it are taken off. -/
theorem trim_append {left text right : List Char} (hleft : ∀ c ∈ left, isWhitespace c)
    (hright : ∀ c ∈ right, isWhitespace c) (htext : ∀ c ∈ text, ¬isWhitespace c) (hne : text ≠ []) :
    trim (left ++ text ++ right) = text := by
  have hstart : (left ++ text ++ right).dropWhile isWhitespace = text ++ right := by
    obtain ⟨c, text, rfl⟩ := List.exists_cons_of_ne_nil hne
    rw [List.append_assoc, List.dropWhile_append_of_pos hleft, List.cons_append,
      List.dropWhile_cons_of_neg (htext c List.mem_cons_self)]
  have hend : (text ++ right).rdropWhile isWhitespace = text := by
    rw [List.rdropWhile, List.reverse_append, List.dropWhile_append_of_pos, ← List.rdropWhile,
      List.rdropWhile_eq_self_iff]
    · exact fun _ => htext _ (List.getLast_mem _)
    · exact fun c hc => hright c (List.mem_reverse.mp hc)
  rw [trim, hstart, hend]

theorem rdropWhile_append_of_blank {right : List Char} (hright : ∀ c ∈ right, isWhitespace c)
    (text : List Char) :
    (text ++ right).rdropWhile isWhitespace = text.rdropWhile isWhitespace := by
  rw [List.rdropWhile, List.reverse_append, List.dropWhile_append_of_pos, ← List.rdropWhile]
  exact fun c hc => hright c (List.mem_reverse.mp hc)

/-- Blanks at the end make no difference. -/
theorem trim_append_of_blank {right : List Char} (hright : ∀ c ∈ right, isWhitespace c)
    (text : List Char) : trim (text ++ right) = trim text := by
  unfold trim
  rw [List.dropWhile_append]
  split
  · next hblank =>
      rw [List.isEmpty_iff.mp hblank, List.dropWhile_eq_nil_iff.mpr hright]
  · exact rdropWhile_append_of_blank hright _

/-- What is not part of the line is blank. -/
theorem exists_stripLine_append (piece : List Char) :
    ∃ ending, piece = stripLine piece ++ ending ∧ ∀ c ∈ ending, isWhitespace c := by
  have hsuffix : ∀ {c : Char} {text line : List Char}, stripSuffix c text = some line →
      text = line ++ [c] := by
    intro c text line h
    unfold stripSuffix at h
    split at h
    · next hlast =>
        cases h
        exact (List.dropLast_append_getLast? c hlast).symm
    · cases h
  unfold stripLine
  split
  · exact ⟨[], (List.append_nil _).symm, nofun⟩
  next line hline =>
  cases hcr : stripSuffix '\r' line with
  | none => exact ⟨['\n'], hsuffix hline, by simp [isWhitespace]⟩
  | some rest =>
      refine ⟨['\r', '\n'], ?_, by simp [isWhitespace]⟩
      rw [hsuffix hline, hsuffix hcr, Option.getD_some, List.append_assoc]
      rfl

theorem not_isWhitespace_of_isDigit {c : Char} (h : c.isDigit) : ¬isWhitespace c := by
  have hrange : 48 ≤ c.toNat ∧ c.toNat ≤ 57 := by
    simpa [Char.isDigit, UInt32.le_iff_toNat_le] using h
  simp only [isWhitespace, Bool.or_eq_true, Bool.and_eq_true, decide_eq_true_eq, beq_iff_eq]
  omega

theorem Numeral.ne_nil {max n : Nat} {text : List Char} (h : Numeral max text n) : text ≠ [] := by
  obtain ⟨digits, rfl | rfl, hne, -⟩ := h
  · exact hne
  · exact List.cons_ne_nil _ _

theorem Numeral.le {max n : Nat} {text : List Char} (h : Numeral max text n) : n ≤ max := by
  obtain ⟨digits, -, -, -, -, hle⟩ := h
  exact hle

/-- A numeral contains no white space. -/
theorem Numeral.not_isWhitespace {max n : Nat} {text : List Char} (h : Numeral max text n) :
    ∀ c ∈ text, ¬isWhitespace c := by
  obtain ⟨digits, htext, -, hdigits, -⟩ := h
  intro c hc
  rcases htext with rfl | rfl
  · exact not_isWhitespace_of_isDigit (hdigits c hc)
  rcases List.mem_cons.mp hc with rfl | hc
  · decide
  · exact not_isWhitespace_of_isDigit (hdigits c hc)

/-- A numeral between blanks. -/
theorem parse_trim_eq_some {max n : Nat} {text : List Char} :
    parse max (trim text) = some n ↔ ∃ left numeral right, text = left ++ numeral ++ right ∧
      (∀ c ∈ left, isWhitespace c) ∧ (∀ c ∈ right, isWhitespace c) ∧ Numeral max numeral n := by
  rw [parse_eq_some]
  constructor
  · intro h
    obtain ⟨left, right, htext, hleft, hright⟩ := eq_append_trim text
    exact ⟨left, trim text, right, htext, hleft, hright, h⟩
  · rintro ⟨left, numeral, right, rfl, hleft, hright, h⟩
    rwa [trim_append hleft hright (Numeral.not_isWhitespace h) (Numeral.ne_nil h)]

end Str

end PaqusNode
