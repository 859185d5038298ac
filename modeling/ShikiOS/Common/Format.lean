import ShikiOS.Common.Str
import ShikiOS.Lib.Serial

/-!
# Formatted output (`common/format.c`)

`vformat` is a program over the static buffer of `_print_int` that puts out characters. It stops
where the source has no meaning: behind the end of the format, of a string or of the buffer, and
for an argument that is missing or of another kind.

A format is a list of pieces: characters that stand for themselves and directives. `text` says
what pieces print.

Results:
* `printInt_reads_back`: what `_print_int` prints is the number, for every base from 2 to 16.
* `vformat_text`: a format with arguments of the right kinds prints the text of its pieces.
* `vformat_prints`: every format is a list of pieces in one way.
-/

namespace ShikiOS.Format

open ShikiOS.Lib

/-! ## Model -/

/-- `char buf[64]` (line 9). -/
abbrev Buf := ℕ → UInt8

def bufSize : ℕ := 64

abbrev Prog := Code Buf UInt8

def ch (c : Char) : UInt8 := c.toNat.toUInt8

/-- `digit` (line 8). -/
def digits : List UInt8 :=
  ['0', '1', '2', '3', '4', '5', '6', '7', '8', '9', 'a', 'b', 'c', 'd', 'e', 'f'].map ch

/-- `digit[n]`. -/
def digit (n : ℕ) : UInt8 := digits.getD n 0

/-- The second loop of `_print_int` (lines 22-24) with `pos` characters in the buffer. -/
def putDigits : ℕ → Prog
  | 0 => .ret
  | pos + 1 => .act id fun buf => .put (buf pos) (putDigits pos)

/-- The first loop (lines 18-20), with room for so many characters from `pos` on, and the second
    one. -/
def getDigits (base : ℕ) : ℕ → ℕ → ℕ → Prog
  | 0, _, _ => .stop
  | room + 1, pos, v =>
    .act (fun buf => Function.update buf pos (digit (v % base))) fun _ =>
      if v / base = 0 then putDigits (pos + 1) else getDigits base room (pos + 1) (v / base)

/-- `_print_int` (lines 5-25). -/
def printInt (u : BitVec 64) (base : ℕ) (isSigned : Bool) : Prog :=
  if isSigned ∧ u.toInt < 0 then .put (ch '-') (getDigits base bufSize 0 (-u).toNat)
  else getDigits base bufSize 0 u.toNat

/-- An argument of a call: a word, or a pointer to a string, which may be null. -/
inductive Arg
  | word (v : BitVec 64)
  | str (s : Option (List UInt8))

/-- `va_arg` of an integer type or a pointer to a string. -/
def vaWord : List Arg → Option (BitVec 64 × List Arg)
  | .word v :: args => some (v, args)
  | _ => none

def vaStr : List Arg → Option (Option (List UInt8) × List Arg)
  | .str s :: args => some (s, args)
  | _ => none

/-- The directives of the `_INT_CASE`s (lines 63-71). -/
inductive IntCase
  | u
  | llu
  | d
  | lld
  | x
  | llx
  | p
  | zu
  | zd
deriving DecidableEq

namespace IntCase

def ident : IntCase → List UInt8
  | u => [ch 'u']
  | llu => [ch 'l', ch 'l', ch 'u']
  | d => [ch 'd']
  | lld => [ch 'l', ch 'l', ch 'd']
  | x => [ch 'x']
  | llx => [ch 'l', ch 'l', ch 'x']
  | p => [ch 'p']
  | zu => [ch 'z', ch 'u']
  | zd => [ch 'z', ch 'd']

/-- `(i64)va_arg(arg, type)`. -/
def value : IntCase → BitVec 64 → BitVec 64
  | u, v => (v.setWidth 32).setWidth 64
  | d, v => (v.setWidth 32).signExtend 64
  | x, v => (v.setWidth 32).setWidth 64
  | _, v => v

def base : IntCase → ℕ
  | x => 16
  | llx => 16
  | p => 16
  | _ => 10

def isSigned : IntCase → Bool
  | d => true
  | lld => true
  | zd => true
  | _ => false

end IntCase

/-- The order of the tests. -/
def intCases : List IntCase := [.u, .llu, .d, .lld, .x, .llx, .p, .zu, .zd]

/-- The first directive of the list that `pos` begins with. -/
def findCase : List IntCase → List UInt8 → Option (Option IntCase)
  | [], _ => some none
  | k :: ks, pos =>
    (strncmp k.ident.length pos k.ident).bind fun r => if r = 0 then some (some k) else findCase ks pos

/-- The characters of a string (lines 57-59). -/
def putString : List UInt8 → Prog
  | [] => .stop
  | c :: s => if c = 0 then .ret else .put c (putString s)

/-- `"(null)"` (line 56). -/
def nullString : List UInt8 := ['(', 'n', 'u', 'l', 'l', ')', '\x00'].map ch

/-- `vformat` (lines 27-83) after so many characters of the format. -/
def vformat : ℕ → List UInt8 → List Arg → Prog
  | _, [], _ => .stop
  | n + 1, _ :: pos, args => vformat n pos args
  | 0, c :: pos, args =>
    if c = 0 then .ret
    else if c ≠ ch '%' then .put c (vformat 0 pos args)
    else if pos.head? = some (ch '%') then .put (ch '%') (vformat 1 pos args)
    else if pos.head? = some (ch 'c') then
      match vaWord args with
      | some (v, args) => .put ⟨v.setWidth 8⟩ (vformat 1 pos args)
      | none => .stop
    else if pos.head? = some (ch 's') then
      match vaStr args with
      | some (s, args) => (putString (s.getD nullString)).andThen (vformat 1 pos args)
      | none => .stop
    else
      match findCase intCases pos with
      | none => .stop
      | some none => .put c (vformat 0 pos args)
      | some (some k) =>
        match vaWord args with
        | some (v, args) =>
          (printInt (k.value v) k.base k.isSigned).andThen (vformat k.ident.length pos args)
        | none => .stop

/-! ## Numbers -/

/-- The digits of a number, the last one first; the number 0 has one digit. -/
def digitsOf (base v : ℕ) : List ℕ := if v = 0 then [0] else Nat.digits base v

/-- A number as it is written. -/
def numeral (base v : ℕ) : List UInt8 := ((digitsOf base v).map digit).reverse

/-- An integer as it is written. -/
def intText (base : ℕ) (z : ℤ) : List UInt8 :=
  if z < 0 then ch '-' :: numeral base z.natAbs else numeral base z.natAbs

/-- What `_print_int` takes a word for. -/
def intValue (u : BitVec 64) (isSigned : Bool) : ℤ := if isSigned then u.toInt else u.toNat

variable {base v pos room : ℕ} {buf : Buf} {u : BitVec 64}

theorem digitsOf_step (hb : 1 < base) :
    digitsOf base v = v % base :: if v / base = 0 then [] else digitsOf base (v / base) := by
  unfold digitsOf
  by_cases hv : v = 0
  · subst hv
    simp
  · rw [if_neg hv, Nat.digits_def' hb (by omega)]
    split_ifs with hq
    · rw [hq, Nat.digits_zero]
    · rfl

theorem putDigits_output : (putDigits pos).output buf = ((List.range pos).map buf).reverse := by
  induction pos with
  | zero => rfl
  | succ pos ih =>
    show buf pos :: (putDigits pos).output buf = _
    rw [ih, List.range_succ, List.map_append, List.reverse_append]
    rfl

theorem putDigits_finishes : (putDigits pos).Finishes buf := by
  induction pos with
  | zero => trivial
  | succ pos ih => exact ih

/-- The characters below `pos` after one more. -/
theorem map_range_update (c : UInt8) :
    (List.range (pos + 1)).map (Function.update buf pos c) = (List.range pos).map buf ++ [c] := by
  rw [List.range_succ, List.map_append, List.map_singleton, Function.update_self]
  congr 1
  apply List.map_congr_left
  intro i hi
  rw [List.mem_range] at hi
  exact Function.update_of_ne (by omega) ..

/-- The loops print the digits in front of which the characters below `pos` stand in the buffer. -/
theorem getDigits_output (hb : 1 < base) (hroom : v < base ^ room) (h0 : 0 < room) :
    (getDigits base room pos v).Finishes buf ∧
      (getDigits base room pos v).output buf = numeral base v ++ ((List.range pos).map buf).reverse := by
  induction room generalizing pos v buf with
  | zero => omega
  | succ room ih =>
    have hbuf := @map_range_update pos buf (digit (v % base))
    rw [numeral, digitsOf_step hb, List.map_cons, List.reverse_cons, List.append_assoc]
    show (ite (v / base = 0) _ _ : Prog).Finishes _ ∧ (ite (v / base = 0) _ _ : Prog).output _ = _
    by_cases hq : v / base = 0
    · rw [if_pos hq, if_pos hq]
      refine ⟨putDigits_finishes, ?_⟩
      rw [putDigits_output, hbuf, List.reverse_append]
      rfl
    · rw [if_neg hq, if_neg hq]
      have hlt : v / base < base ^ room := by
        rw [Nat.div_lt_iff_lt_mul (by omega), ← pow_succ]
        exact hroom
      have hpos : 0 < room := by
        by_contra h
        obtain rfl : room = 0 := by omega
        rw [pow_zero] at hlt
        exact hq (Nat.lt_one_iff.mp hlt)
      refine ⟨(ih hlt hpos).1, ?_⟩
      rw [(ih hlt hpos).2, hbuf, List.reverse_append]
      rfl

theorem toNat_lt_pow (hb : 1 < base) (u : BitVec 64) : u.toNat < base ^ bufSize :=
  u.isLt.trans_le (Nat.pow_le_pow_left hb bufSize)

/-- The magnitude of a negative word; that of the least one is a word again. -/
theorem toNat_neg_eq_natAbs (h : u.toInt < 0) : (-u).toNat = u.toInt.natAbs := by
  rw [BitVec.toNat_neg]
  rw [BitVec.toInt_eq_toNat_cond] at h ⊢
  split_ifs at h ⊢ with hu
  · omega
  · omega

/-- `_print_int` stays inside its buffer, whatever is in there, and prints the integer. -/
theorem printInt_output (hb : 1 < base) (isSigned : Bool) :
    (printInt u base isSigned).Finishes buf ∧
      (printInt u base isSigned).output buf = intText base (intValue u isSigned) := by
  unfold printInt
  by_cases h : isSigned ∧ u.toInt < 0
  · have hget := @getDigits_output base (-u).toNat 0 bufSize buf hb (toNat_lt_pow hb _) (by decide)
    rw [if_pos h, intValue, if_pos h.1, intText, if_pos h.2, ← toNat_neg_eq_natAbs h.2]
    refine ⟨hget.1, congrArg (ch '-' :: ·) (hget.2.trans (List.append_nil _))⟩
  · have hget := @getDigits_output base u.toNat 0 bufSize buf hb (toNat_lt_pow hb _) (by decide)
    have hval : ¬ intValue u isSigned < 0 ∧ (intValue u isSigned).natAbs = u.toNat := by
      unfold intValue
      split_ifs with hs
      · have h0 : ¬ u.toInt < 0 := fun h0 => h ⟨hs, h0⟩
        refine ⟨h0, ?_⟩
        rw [BitVec.toInt_eq_toNat_cond] at h0 ⊢
        split_ifs at h0 ⊢ with hu
        · omega
        · omega
      · omega
    rw [if_neg h, intText, if_neg hval.1, hval.2]
    exact ⟨hget.1, hget.2.trans (List.append_nil _)⟩

/-! ## Numbers that are read -/

/-- The value of a digit in a base. -/
def digitValue (base : ℕ) (c : UInt8) : Option ℕ :=
  let n := digits.idxOf c
  if n < base ∧ n < digits.length then some n else none

/-- A number in a base from its characters. -/
def readNat (base : ℕ) (l : List UInt8) : Option ℕ :=
  if l = [] then none else (l.mapM (digitValue base)).map fun ds => Nat.ofDigits base ds.reverse

/-- An integer from its characters. -/
def readInt (base : ℕ) : List UInt8 → Option ℤ
  | [] => none
  | c :: l =>
    if c = ch '-' then (readNat base l).map fun n : ℕ => -(n : ℤ)
    else (readNat base (c :: l)).map fun n : ℕ => (n : ℤ)

theorem digitValue_digit (hb : base ≤ 16) {n : ℕ} (hn : n < base) : digitValue base (digit n) = some n := by
  have hidx : ∀ n < 16, digits.idxOf (digit n) = n := by decide
  have hlen : digits.length = 16 := rfl
  rw [digitValue, hidx n (by omega), if_pos ⟨hn, by omega⟩]

theorem digit_ne_minus {n : ℕ} (hn : n < 16) : digit n ≠ ch '-' := by
  have h : ∀ n < 16, digit n ≠ ch '-' := by decide
  exact h n hn

theorem digitsOf_lt (hb : 1 < base) : ∀ n ∈ digitsOf base v, n < base := by
  unfold digitsOf
  split_ifs with hv
  · simp
    omega
  · exact fun n hn => Nat.digits_lt_base hb hn

theorem digitsOf_ne_nil : digitsOf base v ≠ [] := by
  unfold digitsOf
  split_ifs with hv
  · simp
  · exact Nat.digits_ne_nil_iff_ne_zero.mpr hv

theorem ofDigits_digitsOf : Nat.ofDigits base (digitsOf base v) = v := by
  unfold digitsOf
  split_ifs with hv
  · simp [hv]
  · exact Nat.ofDigits_digits base v

theorem readNat_numeral (hb : 1 < base) (hb' : base ≤ 16) : readNat base (numeral base v) = some v := by
  have hne : numeral base v ≠ [] := by simp [numeral, digitsOf_ne_nil]
  have hread : (numeral base v).mapM (digitValue base) = some (digitsOf base v).reverse := by
    rw [numeral, ← List.map_reverse]
    have hlt : ∀ n ∈ (digitsOf base v).reverse, n < base := by
      intro n hn
      exact digitsOf_lt hb n (List.mem_reverse.mp hn)
    generalize (digitsOf base v).reverse = ds at hlt
    induction ds with
    | nil => rfl
    | cons n ds ih =>
      rw [List.forall_mem_cons] at hlt
      rw [List.map_cons, List.mapM_cons, digitValue_digit hb' hlt.1, ih hlt.2]
      rfl
  rw [readNat, if_neg hne, hread, Option.map_some, List.reverse_reverse, ofDigits_digitsOf]

/-- A numeral begins with a digit, with 0 only if that is all of it. -/
theorem numeral_head (hb : 1 < base) (hb' : base ≤ 16) :
    ∃ c l, numeral base v = c :: l ∧ c ≠ ch '-' ∧ (c = ch '0' → v = 0 ∧ l = []) := by
  have hzero : ∀ n < 16, digit n = ch '0' → n = 0 := by decide
  by_cases hv : v = 0
  · subst hv
    exact ⟨digit 0, [], rfl, by decide, fun _ => ⟨rfl, rfl⟩⟩
  · have hne : Nat.digits base v ≠ [] := Nat.digits_ne_nil_iff_ne_zero.mpr hv
    have hlast := Nat.getLast_digit_ne_zero base hv
    have hlt := Nat.digits_lt_base hb (List.getLast_mem hne)
    refine ⟨digit ((Nat.digits base v).getLast hne), (((Nat.digits base v).dropLast).map digit).reverse, ?_,
      digit_ne_minus (by omega), fun h => absurd (hzero _ (by omega) h) hlast⟩
    rw [numeral, digitsOf, if_neg hv]
    conv_lhs => rw [← List.dropLast_append_getLast hne]
    rw [List.map_append, List.reverse_append]
    rfl

theorem readInt_intText (hb : 1 < base) (hb' : base ≤ 16) (z : ℤ) : readInt base (intText base z) = some z := by
  obtain ⟨c, l, hc, hne, -⟩ := @numeral_head base z.natAbs hb hb'
  have hread := @readNat_numeral base z.natAbs hb hb'
  unfold intText
  split_ifs with hz
  · rw [readInt, if_pos rfl, hread, Option.map_some]
    congr 1
    omega
  · rw [hc, readInt, if_neg hne, ← hc, hread, Option.map_some]
    congr 1
    omega

/-- An integer has no leading zero, and 0 has no sign. -/
theorem intText_head (hb : 1 < base) (hb' : base ≤ 16) (z : ℤ) (l : List UInt8) :
    intText base z ≠ ch '-' :: ch '0' :: l ∧ (intText base z = ch '0' :: l → l = []) := by
  obtain ⟨c, r, hc, hne, h0⟩ := @numeral_head base z.natAbs hb hb'
  have hminus : ch '-' ≠ ch '0' := by decide
  unfold intText
  split_ifs with hz
  · rw [hc]
    refine ⟨fun h => ?_, fun h => absurd (List.cons.inj h).1 hminus⟩
    obtain ⟨hz0, -⟩ := h0 (List.cons.inj (List.cons.inj h).2).1
    omega
  · rw [hc]
    refine ⟨fun h => absurd (List.cons.inj h).1 hne, fun h => ?_⟩
    rw [← (List.cons.inj h).2]
    exact (h0 (List.cons.inj h).1).2

/-- `_print_int` never leaves its buffer, and what it prints, whatever was in there, is read back as
    the integer and has no leading zero: for every base up to 16, also for the least `i64`, whose
    negation overflows. -/
theorem printInt_reads_back (u : BitVec 64) (base : ℕ) (hb : 1 < base) (hb' : base ≤ 16) (isSigned : Bool)
    (buf : Buf) (l : List UInt8) :
    (printInt u base isSigned).Finishes buf ∧
      readInt base ((printInt u base isSigned).output buf) = some (intValue u isSigned) ∧
      (printInt u base isSigned).output buf ≠ ch '-' :: ch '0' :: l ∧
      ((printInt u base isSigned).output buf = ch '0' :: l → l = []) := by
  obtain ⟨hends, hout⟩ := @printInt_output base buf u hb isSigned
  rw [hout]
  exact ⟨hends, readInt_intText hb hb' _, intText_head hb hb' _ l⟩

/-- The least `i64`. -/
theorem printInt_reads_back_min : readInt 10 ((printInt (BitVec.intMin 64) 10 true).output fun _ => 0) =
    some (-2 ^ 63) :=
  (printInt_reads_back (BitVec.intMin 64) 10 (by decide) (by decide) true (fun _ => 0) []).2.1

/-! ## Pieces -/

/-- A character that stands for itself, or a directive. -/
inductive Piece
  | lit (c : UInt8)
  | percent
  | char
  | str
  | int (k : IntCase)
deriving DecidableEq

/-- What follows `%` in a directive. -/
def Piece.tail : Piece → List UInt8
  | .lit _ => []
  | .percent => [ch '%']
  | .char => [ch 'c']
  | .str => [ch 's']
  | .int k => k.ident

def Piece.source : Piece → List UInt8
  | .lit c => [c]
  | q => ch '%' :: q.tail

def directives : List Piece := [.percent, .char, .str] ++ intCases.map .int

/-- The format that consists of the pieces. -/
def source (ps : List Piece) : List UInt8 := ps.flatMap Piece.source

/-- No character is a NUL, and no `%` stands before the rest of a directive. -/
def Canonical : List Piece → Prop
  | [] => True
  | .lit c :: ps => c ≠ 0 ∧ (c = ch '%' → ∀ q ∈ directives, ¬ q.tail <+: source ps) ∧ Canonical ps
  | _ :: ps => Canonical ps

/-- The characters of a string argument; the buffer of a string has a NUL. -/
def strText : Option (List UInt8) → Option (List UInt8)
  | none => some (cstr nullString)
  | some s => if 0 ∈ s then some (cstr s) else none

/-- What pieces print, if the arguments are of the right kinds. -/
def text : List Piece → List Arg → Option (List UInt8)
  | [], _ => some []
  | .lit c :: ps, args => (text ps args).map (c :: ·)
  | .percent :: ps, args => (text ps args).map (ch '%' :: ·)
  | .char :: ps, .word v :: args => (text ps args).map (⟨v.setWidth 8⟩ :: ·)
  | .str :: ps, .str s :: args => (strText s).bind fun out => (text ps args).map (out ++ ·)
  | .int k :: ps, .word v :: args =>
    (text ps args).map (intText k.base (intValue (k.value v) k.isSigned) ++ ·)
  | _, _ => none

variable {ps : List Piece} {args : List Arg} {out fmt rest : List UInt8} {k : IntCase}

theorem vformat_skip (l : List UInt8) : vformat l.length (l ++ rest) args = vformat 0 rest args := by
  induction l with
  | nil => rfl
  | cons c l ih => exact ih

theorem putString_spec {s : List UInt8} (h : 0 ∈ s) :
    (putString s).Finishes buf ∧ (putString s).output buf = cstr s := by
  induction s with
  | nil => simp at h
  | cons c s ih =>
    by_cases hc : c = 0
    · subst hc
      exact ⟨trivial, rfl⟩
    · have hs : 0 ∈ s := by simpa [Ne.symm hc] using h
      rw [putString, if_neg hc, cstr, List.takeWhile_cons_of_pos (by simpa using hc)]
      exact ⟨(ih hs).1, congrArg (c :: ·) (ih hs).2⟩

theorem putString_strText {s : Option (List UInt8)} (h : strText s = some out) :
    (putString (s.getD nullString)).Finishes buf ∧ (putString (s.getD nullString)).output buf = out := by
  cases s with
  | none =>
    cases h
    exact putString_spec (by decide)
  | some s =>
    rw [strText] at h
    split_ifs at h with h0
    cases h
    exact putString_spec h0

/-- The comparison with an identifier finds a NUL before the end of the buffer. -/
theorem strncmp_ident {i : List UInt8} (hi : 0 ∉ i) (hf : 0 ∈ fmt) :
    ∃ r, strncmp i.length fmt i = some r ∧ (r = 0 ↔ i <+: fmt) := by
  induction i generalizing fmt with
  | nil => exact ⟨0, by cases fmt <;> rfl, by simp⟩
  | cons a i ih =>
    cases fmt with
    | nil => simp at hf
    | cons b fmt =>
      rw [List.mem_cons, not_or] at hi
      rw [List.length_cons, strncmp]
      by_cases hab : b = a
      · subst hab
        rw [if_neg (not_not.mpr rfl), if_neg (by simpa [eq_comm] using hi.1)]
        obtain ⟨r, hr, hiff⟩ := ih hi.2 (by simpa [hi.1] using hf)
        exact ⟨r, hr, by simp [hiff]⟩
      · refine ⟨_, if_pos hab, iff_of_false ?_ (by simp [Ne.symm hab])⟩
        intro h
        exact hab (UInt8.toNat_inj.mp (by omega))

theorem ident_no_nul (k : IntCase) : 0 ∉ k.ident := by
  cases k <;> decide

/-- A `%` that no directive follows. -/
theorem findCase_none {ks : List IntCase} (hf : 0 ∈ fmt) (h : ∀ k ∈ ks, ¬ k.ident <+: fmt) :
    findCase ks fmt = some none := by
  induction ks with
  | nil => rfl
  | cons k ks ih =>
    rw [List.forall_mem_cons] at h
    obtain ⟨r, hr, hiff⟩ := strncmp_ident (ident_no_nul k) hf
    rw [findCase, hr, Option.bind_some, if_neg (fun h0 => h.1 (hiff.mp h0)), ih h.2]

theorem findCase_ident (k : IntCase) (rest : List UInt8) :
    findCase intCases (k.ident ++ rest) = some (some k) := by
  cases k <;> rfl

theorem head_ne_of_not_prefixed {c : UInt8} (h : ¬ [c] <+: fmt) : fmt.head? ≠ some c := by
  intro hc
  apply h
  obtain ⟨l, rfl⟩ := List.head?_eq_some_iff.mp hc
  exact ⟨l, rfl⟩

/-- What has no NUL and begins a string with its NUL begins the string. -/
theorem prefix_of_append_nul {t l : List UInt8} (ht : 0 ∉ t) (h : t <+: l ++ 0 :: rest) : t <+: l := by
  induction t generalizing l with
  | nil => exact List.nil_prefix
  | cons a t ih =>
    rw [List.mem_cons, not_or] at ht
    cases l with
    | nil => exact absurd (List.cons_prefix_cons.mp h).1.symm ht.1
    | cons b l =>
      obtain ⟨hab, htl⟩ := List.cons_prefix_cons.mp h
      exact List.cons_prefix_cons.mpr ⟨hab, ih ht.2 htl⟩

theorem tail_no_nul {q : Piece} (h : q ∈ directives) : 0 ∉ q.tail := by
  revert q
  decide

theorem int_mem_directives (k : IntCase) : .int k ∈ directives := by
  cases k <;> decide

/-- A character that stands for itself is printed. -/
theorem vformat_lit {c : UInt8} (hc : c ≠ 0) (hlit : c = ch '%' → ∀ q ∈ directives, ¬ q.tail <+: fmt) :
    vformat 0 (c :: (fmt ++ 0 :: rest)) args = .put c (vformat 0 (fmt ++ 0 :: rest) args) := by
  by_cases hp : c = ch '%'
  · have hnot : ∀ q ∈ directives, ¬ q.tail <+: fmt ++ 0 :: rest :=
      fun q hq h => hlit hp q hq (prefix_of_append_nul (tail_no_nul hq) h)
    have hfind : findCase intCases (fmt ++ 0 :: rest) = some none := by
      apply findCase_none
      · simp
      · exact fun k _ => hnot (.int k) (int_mem_directives k)
    rw [vformat, if_neg hc, if_neg (not_not.mpr hp), if_neg (head_ne_of_not_prefixed (hnot .percent (by decide))),
      if_neg (head_ne_of_not_prefixed (hnot .char (by decide))),
      if_neg (head_ne_of_not_prefixed (hnot .str (by decide))), hfind]
  · rw [vformat, if_neg hc, if_pos hp]

theorem vformat_int (k : IntCase) (v : BitVec 64) (rest : List UInt8) :
    vformat 0 (ch '%' :: (k.ident ++ rest)) (.word v :: args) =
      (printInt (k.value v) k.base k.isSigned).andThen (vformat 0 rest args) := by
  have hhead : (k.ident ++ rest).head? ≠ some (ch '%') ∧ (k.ident ++ rest).head? ≠ some (ch 'c') ∧
      (k.ident ++ rest).head? ≠ some (ch 's') := by
    have hident : ∀ c, (k.ident ++ rest).head? = some c → c ∈ k.ident := by
      intro c hc
      cases k <;> exact Option.some.inj hc ▸ List.mem_cons_self
    have hnot : ch '%' ∉ k.ident ∧ ch 'c' ∉ k.ident ∧ ch 's' ∉ k.ident := by
      cases k <;> decide
    exact ⟨fun h => hnot.1 (hident _ h), fun h => hnot.2.1 (hident _ h), fun h => hnot.2.2 (hident _ h)⟩
  rw [vformat, if_neg (by decide), if_neg (by decide), if_neg hhead.1, if_neg hhead.2.1, if_neg hhead.2.2,
    findCase_ident]
  show (printInt _ _ _).andThen (vformat k.ident.length (k.ident ++ rest) args) = _
  rw [vformat_skip]

/-- A format prints the text of its pieces, whatever is in the buffer. -/
theorem vformat_text (hps : Canonical ps) (hargs : text ps args = some out) (rest : List UInt8) (buf : Buf) :
    (vformat 0 (source ps ++ 0 :: rest) args).Finishes buf ∧
      (vformat 0 (source ps ++ 0 :: rest) args).output buf = out := by
  induction ps generalizing args out buf with
  | nil =>
    cases hargs
    exact ⟨trivial, rfl⟩
  | cons q ps ih =>
    cases q with
    | lit c =>
      obtain ⟨hc, hlit, hps⟩ := hps
      obtain ⟨l, hl, rfl⟩ := Option.map_eq_some_iff.mp hargs
      obtain ⟨hends, hout⟩ := ih hps hl buf
      show (vformat 0 (c :: (source ps ++ 0 :: rest)) args).Finishes buf ∧
        (vformat 0 (c :: (source ps ++ 0 :: rest)) args).output buf = c :: l
      rw [vformat_lit hc hlit]
      exact ⟨hends, congrArg (c :: ·) hout⟩
    | percent =>
      obtain ⟨l, hl, rfl⟩ := Option.map_eq_some_iff.mp hargs
      obtain ⟨hends, hout⟩ := ih hps hl buf
      exact ⟨hends, congrArg (ch '%' :: ·) hout⟩
    | char =>
      obtain _ | ⟨v | s, args⟩ := args
      · cases hargs
      · obtain ⟨l, hl, rfl⟩ := Option.map_eq_some_iff.mp hargs
        obtain ⟨hends, hout⟩ := ih hps hl buf
        exact ⟨hends, congrArg (_ :: ·) hout⟩
      · cases hargs
    | str =>
      obtain _ | ⟨v | s, args⟩ := args
      · cases hargs
      · cases hargs
      · obtain ⟨o, ho, hargs⟩ := Option.bind_eq_some_iff.mp hargs
        obtain ⟨l, hl, rfl⟩ := Option.map_eq_some_iff.mp hargs
        obtain ⟨hends, hout⟩ : (putString (s.getD nullString)).Finishes buf ∧ _ := putString_strText ho
        have hrest := ih hps hl
        show ((putString (s.getD nullString)).andThen (vformat 0 (source ps ++ 0 :: rest) args)).Finishes buf ∧
          ((putString (s.getD nullString)).andThen (vformat 0 (source ps ++ 0 :: rest) args)).output buf = _
        rw [Code.finishes_andThen, Code.output_andThen hends, hout, (hrest _).2]
        exact ⟨⟨hends, (hrest _).1⟩, rfl⟩
    | int k =>
      obtain _ | ⟨v | s, args⟩ := args
      · cases hargs
      · obtain ⟨l, hl, rfl⟩ := Option.map_eq_some_iff.mp hargs
        have hbase : 1 < k.base := by cases k <;> decide
        obtain ⟨hends, hout⟩ := @printInt_output k.base buf (k.value v) hbase k.isSigned
        have hrest := ih hps hl
        have hsource : source (.int k :: ps) ++ 0 :: rest =
            ch '%' :: (k.ident ++ (source ps ++ 0 :: rest)) := by
          simp [source, Piece.source, Piece.tail]
        rw [hsource, vformat_int, Code.finishes_andThen, Code.output_andThen hends, hout, (hrest _).2]
        exact ⟨⟨hends, (hrest _).1⟩, rfl⟩
      · cases hargs

/-! ## Every format is a list of pieces -/

/-- The directive whose rest `pos` begins with. -/
def directive (pos : List UInt8) : Option Piece := directives.find? fun q => q.tail.isPrefixOf pos

/-- The pieces of a format after so many characters of it. -/
def pieces : ℕ → List UInt8 → List Piece
  | _, [] => []
  | n + 1, _ :: pos => pieces n pos
  | 0, c :: pos =>
    if c = ch '%' then
      (directive pos).elim (.lit c :: pieces 0 pos) fun q => q :: pieces q.tail.length pos
    else .lit c :: pieces 0 pos

variable {q : Piece} {n : ℕ}

theorem directive_eq_none (h : directive fmt = none) : ∀ q ∈ directives, ¬ q.tail <+: fmt := by
  intro q hq hpre
  have hnot := List.find?_eq_none.mp h q hq
  exact hnot (List.isPrefixOf_iff_prefix.mpr hpre)

theorem of_directive_eq_some (h : directive fmt = some q) : q ∈ directives ∧ q.tail <+: fmt :=
  ⟨List.mem_of_find?_eq_some h, List.isPrefixOf_iff_prefix.mp
    (List.find?_some (p := fun q : Piece => q.tail.isPrefixOf fmt) h)⟩

theorem source_of_directive (h : q ∈ directives) : q.source = ch '%' :: q.tail := by
  revert q
  decide

theorem canonical_of_directive (h : q ∈ directives) (hps : Canonical ps) : Canonical (q :: ps) := by
  cases q with
  | lit c => exact absurd h (by simp [directives, intCases])
  | _ => exact hps

theorem source_pieces (l : List UInt8) : source (pieces n l) = l.drop n := by
  induction l generalizing n with
  | nil => cases n <;> rfl
  | cons c pos ih =>
    cases n with
    | succ n => exact ih
    | zero =>
      have hlit : source (.lit c :: pieces 0 pos) = c :: pos := congrArg (c :: ·) ih
      rw [pieces]
      split_ifs with hc
      · cases hd : directive pos with
        | none => exact hlit
        | some q =>
          obtain ⟨hq, rest, rfl⟩ := of_directive_eq_some hd
          show q.source ++ source (pieces q.tail.length (q.tail ++ rest)) = c :: (q.tail ++ rest)
          rw [ih, List.drop_left, source_of_directive hq, hc]
          rfl
      · exact hlit

theorem canonical_pieces {l : List UInt8} (h : 0 ∉ l) : Canonical (pieces n l) := by
  induction l generalizing n with
  | nil => cases n <;> trivial
  | cons c pos ih =>
    rw [List.mem_cons, not_or] at h
    cases n with
    | succ n => exact ih h.2
    | zero =>
      rw [pieces]
      split_ifs with hc
      · cases hd : directive pos with
        | none =>
          refine ⟨Ne.symm h.1, fun _ => ?_, ih h.2⟩
          rw [source_pieces]
          exact directive_eq_none hd
        | some q => exact canonical_of_directive (of_directive_eq_some hd).1 (ih h.2)
      · exact ⟨Ne.symm h.1, fun h => absurd h hc, ih h.2⟩

theorem pieces_skip (l : List UInt8) : pieces l.length (l ++ rest) = pieces 0 rest := by
  induction l with
  | nil => rfl
  | cons c l ih => exact ih

/-- What follows `%` in one directive begins no other. -/
theorem directive_tail (h : q ∈ directives) : directive (q.tail ++ rest) = some q := by
  have hfree : ∀ q ∈ directives, ∀ q' ∈ directives, q.tail <+: q'.tail → q = q' := by decide
  cases hd : directive (q.tail ++ rest) with
  | none => exact absurd ⟨rest, rfl⟩ (directive_eq_none hd q h)
  | some q' =>
    obtain ⟨hq', hpre⟩ := of_directive_eq_some hd
    obtain h1 | h1 := List.prefix_or_prefix_of_prefix hpre (List.prefix_append q.tail rest)
    · rw [hfree q' hq' q h h1]
    · rw [hfree q h q' hq' h1]

theorem pieces_directive (h : q ∈ directives) : pieces 0 (q.source ++ source ps) = q :: pieces 0 (source ps) := by
  rw [source_of_directive h, List.cons_append, pieces, if_pos rfl, directive_tail h]
  exact congrArg (q :: ·) (pieces_skip q.tail)

theorem pieces_source (h : Canonical ps) : pieces 0 (source ps) = ps := by
  induction ps with
  | nil => rfl
  | cons q ps ih =>
    cases q with
    | lit c =>
      obtain ⟨-, hlit, hps⟩ := h
      show pieces 0 (c :: source ps) = .lit c :: ps
      rw [pieces, ih hps]
      split_ifs with hc
      · have hd : directive (source ps) = none := by
          apply List.find?_eq_none.mpr
          intro q hq hpre
          exact hlit hc q hq (List.isPrefixOf_iff_prefix.mp hpre)
        rw [hd]
        rfl
      · rfl
    | percent => exact (pieces_directive (by decide)).trans (congrArg _ (ih h))
    | char => exact (pieces_directive (by decide)).trans (congrArg _ (ih h))
    | str => exact (pieces_directive (by decide)).trans (congrArg _ (ih h))
    | int k => exact (pieces_directive (int_mem_directives k)).trans (congrArg _ (ih h))

/-- Every format is a list of pieces in exactly one way, and prints their text with every list of
    arguments of their kinds. -/
theorem vformat_prints (fmt : List UInt8) (hf : 0 ∉ fmt) :
    ∃! ps, Canonical ps ∧ source ps = fmt ∧ ∀ args out rest buf, text ps args = some out →
      (vformat 0 (fmt ++ 0 :: rest) args).Finishes buf ∧
      (vformat 0 (fmt ++ 0 :: rest) args).output buf = out := by
  have hsource : source (pieces 0 fmt) = fmt := source_pieces fmt
  refine ⟨pieces 0 fmt, ⟨canonical_pieces hf, hsource, ?_⟩, ?_⟩
  · intro args out rest buf hargs
    have h := vformat_text (canonical_pieces hf) hargs rest buf
    rwa [hsource] at h
  · rintro ps ⟨hps, rfl, -⟩
    exact (pieces_source hps).symm

/-- `%p  %ld` (sysfile.c:181): there is no `%ld`. -/
theorem vformat_prints_munmap :
    (vformat 0 (['%', 'p', ' ', '%', 'l', 'd'].map ch ++ [0]) [.word 0x1f00, .word 7]).output (fun _ => 0) =
      ['1', 'f', '0', '0', ' ', '%', 'l', 'd'].map ch := by
  obtain ⟨ps, ⟨hps, hsource, hprints⟩, -⟩ :=
    vformat_prints (['%', 'p', ' ', '%', 'l', 'd'].map ch) (by decide)
  refine (hprints _ _ [] _ ?_).2
  rw [← pieces_source hps, hsource]
  decide +kernel

end ShikiOS.Format
