import Mathlib.Data.Nat.Digits.Defs
import TypeGraph.Output.TypeScript
import TypeGraph.Proofs.Schema.Spelling
/-!
Whole numbers of the notation. What a numeral denotes is said by the places of its digits; the
literal that the reader makes of it, and the text written for this literal, are compared with that
number, whatever the length of the numeral and the zeros in front of it.
-/

namespace TypeGraph.Schema

namespace Numeral

def digit (c : Char) : Nat :=
  c.toNat - '0'.toNat

/-- The number that digits denote by their places. -/
def places (ds : List Char) : Nat :=
  Nat.ofDigits 10 (ds.reverse.map digit)

/-- The number that a numeral denotes. -/
def value : List Char → Int
  | '-' :: ds => -places ds
  | ds => places ds

variable {c d : Char} {cs ds : List Char} {n : Int}

@[simp] theorem places_nil : places [] = 0 :=
  rfl

theorem places_concat : places (ds ++ [d]) = 10 * places ds + digit d := by
  rw [places, List.reverse_append, List.reverse_singleton, List.singleton_append, List.map_cons,
    Nat.ofDigits_cons, Nat.add_comm]
  rfl

theorem digitsValue_eq_places (ds : List Char) : Decimal.digitsValue ds = places ds := by
  induction ds using List.reverseRecOn with
  | nil => rfl
  | append_singleton ds d ih =>
    rw [places_concat, ← ih]
    simp [Decimal.digitsValue, List.foldl_append, digit]

theorem value_negative : value ('-' :: ds) = -places ds :=
  rfl

theorem value_natural (h : cs.head? ≠ some '-') : value cs = places cs := by
  unfold value
  split
  · exact absurd rfl h
  · rfl

theorem integerLiteral_eq (text : String) : Parser.integerLiteral text =
    if -Int.pow 2 63 ≤ value text.toList ∧ value text.toList < Int.pow 2 63 then
      some (.int (.ofInt (value text.toList)))
    else if Int.pow 2 63 ≤ value text.toList ∧ value text.toList < Int.pow 2 64 then
      some (.uint (.ofNat (value text.toList).toNat))
    else none := by
  unfold Parser.integerLiteral
  extract_lets n
  have hn : n = value text.toList := by
    simp only [n, digitsValue_eq_places]
    rfl
  rw [hn]

section Checked

/-- `n`, if it lies between the bounds. -/
def within (low high n : Int) : Option Int :=
  if low ≤ n ∧ n ≤ high then some n else none

/-- Takes digits one after another, each with the sign, and gives up as soon as a product or a sum
leaves the bounds. -/
def accumulate (low high sign : Int) (ds : List Char) : Option Int :=
  ds.foldlM (fun n d => do
    let shifted ← within low high (10 * n)
    within low high (shifted + sign * digit d)) 0

/-- A number of 64 bits with a sign, read one digit at a time. -/
def signed? : List Char → Option Int64
  | '-' :: ds => (accumulate (-Int.pow 2 63) (Int.pow 2 63 - 1) (-1) ds).map .ofInt
  | ds => (accumulate (-Int.pow 2 63) (Int.pow 2 63 - 1) 1 ds).map .ofInt

/-- A number of 64 bits without a sign, read one digit at a time. -/
def unsigned? (cs : List Char) : Option UInt64 :=
  if cs.head? = some '-' then none
  else (accumulate 0 (Int.pow 2 64 - 1) 1 cs).map fun n => .ofNat n.toNat

variable {low high sign : Int}

/-- A test that every later one implies can be left out. -/
theorem within_bind {m : Int} {f : Int → Option Int} (hf : f m = within low high n)
    (h : low ≤ n ∧ n ≤ high → low ≤ m ∧ m ≤ high) :
    (within low high m).bind f = within low high n := by
  by_cases hm : low ≤ m ∧ m ≤ high
  · rw [within, if_pos hm, Option.bind_some, hf]
  · have hn : ¬(low ≤ n ∧ n ≤ high) := fun hn => hm (h hn)
    rw [within, if_neg hm, Option.bind_none, within, if_neg hn]

/-- Once the bounds are left, no further digit leads back between them. -/
theorem accumulate_eq (hlow : low ≤ 0) (hhigh : 0 ≤ high) (hsign : sign = 1 ∨ sign = -1)
    (ds : List Char) : accumulate low high sign ds = within low high (sign * places ds) := by
  induction ds using List.reverseRecOn with
  | nil =>
    rw [places_nil, Int.natCast_zero, Int.mul_zero, within, if_pos ⟨hlow, hhigh⟩]
    rfl
  | append_singleton ds d ih =>
    have hstep : accumulate low high sign (ds ++ [d]) =
        (accumulate low high sign ds).bind fun n =>
          (within low high (10 * n)).bind fun shifted =>
            within low high (shifted + sign * digit d) := by
      simp [accumulate, List.foldlM_append]
    have hplaces : sign * (places (ds ++ [d]) : Int) =
        10 * (sign * places ds) + sign * digit d := by
      rw [places_concat]
      push_cast
      ring
    have hfront : low ≤ 10 * (sign * places ds) ∧ 10 * (sign * places ds) ≤ high →
        low ≤ sign * places ds ∧ sign * places ds ≤ high := by
      rcases hsign with rfl | rfl <;> omega
    have hback : low ≤ 10 * (sign * places ds) + sign * digit d ∧
        10 * (sign * places ds) + sign * digit d ≤ high →
          low ≤ 10 * (sign * places ds) ∧ 10 * (sign * places ds) ≤ high := by
      rcases hsign with rfl | rfl <;> omega
    rw [hstep, ih, hplaces]
    exact within_bind (within_bind rfl hback) (hfront ∘ hback)

/-- The reader's literal is that of the two checked readings, the one with a sign first. -/
theorem integerLiteral_eq_checked (text : String) : Parser.integerLiteral text =
    ((signed? text.toList).map Literal.int).or ((unsigned? text.toList).map Literal.uint) := by
  rw [integerLiteral_eq]
  generalize text.toList = cs
  by_cases hsign : cs.head? = some '-'
  · obtain ⟨ds, rfl⟩ := List.head?_eq_some_iff.mp hsign
    have hnonpos : value ('-' :: ds) ≤ 0 := by
      rw [value_negative]
      omega
    have hsigned : signed? ('-' :: ds) = (within (-Int.pow 2 63) (Int.pow 2 63 - 1)
        (value ('-' :: ds))).map .ofInt := by
      rw [signed?, accumulate_eq (by decide) (by decide) (.inr rfl), value_negative, Int.neg_mul,
        Int.one_mul]
    rw [hsigned, unsigned?, if_pos hsign]
    generalize value ('-' :: ds) = n at *
    rw [within, pow_63, pow_64]
    by_cases hn : -9223372036854775808 ≤ n
    · rw [if_pos (by omega), if_pos (by omega)]
      rfl
    · rw [if_neg (by omega), if_neg (by omega), if_neg (by omega)]
      rfl
  · have hnonneg : 0 ≤ value cs := by
      rw [value_natural hsign]
      omega
    have hsigned : signed? cs = (within (-Int.pow 2 63) (Int.pow 2 63 - 1) (value cs)).map .ofInt := by
      rw [value_natural hsign, ← Int.one_mul (places cs : Int),
        ← accumulate_eq (by decide) (by decide) (.inl rfl)]
      unfold signed?
      split
      · exact absurd rfl hsign
      · rfl
    have hunsigned : unsigned? cs =
        (within 0 (Int.pow 2 64 - 1) (value cs)).map fun n => .ofNat n.toNat := by
      rw [unsigned?, if_neg hsign, accumulate_eq (by decide) (by decide) (.inl rfl), Int.one_mul,
        value_natural hsign]
    rw [hsigned, hunsigned]
    generalize value cs = n at *
    rw [within, within, pow_63, pow_64]
    by_cases hint : n < 9223372036854775808
    · rw [if_pos (by omega), if_pos (by omega)]
      rfl
    · rw [if_neg (by omega)]
      by_cases huint : n < 18446744073709551616
      · rw [if_pos (by omega), if_neg (by omega), if_pos (by omega)]
        rfl
      · rw [if_neg (by omega), if_neg (by omega), if_neg (by omega)]
        rfl

end Checked

section Literal

/-- The literal keeps a number exactly, in a signed word if one holds it. -/
inductive Keeps (n : Int) : Literal → Prop
  | int {i : Int64} (h : i.toInt = n) : Keeps n (.int i)
  | uint {u : UInt64} (high : Int.pow 2 63 ≤ n) (h : (u.toNat : Int) = n) : Keeps n (.uint u)

variable {v : Literal}

theorem integerLiteral_iff {text : String} :
    Parser.integerLiteral text = some v ↔ Keeps (value text.toList) v := by
  rw [integerLiteral_eq]
  generalize value text.toList = n
  constructor
  · intro h
    rw [pow_63, pow_64] at h
    split at h
    · next hn =>
      obtain rfl := Option.some.inj h
      exact .int (Int64.toInt_ofInt_of_le (by simpa using hn.1) (by simpa using hn.2))
    · split at h
      · next hn =>
        obtain rfl := Option.some.inj h
        have hsize : n.toNat < UInt64.size := by
          have hlt := hn.2
          rw [UInt64.size]
          omega
        refine .uint (by rw [pow_63]; exact hn.1) ?_
        rw [UInt64.toNat_ofNat_of_lt' hsize]
        omega
      · cases h
  · intro h
    cases h with
    | @int i h =>
      have hlow := i.le_toInt
      have hlt := i.toInt_lt
      rw [if_pos (by rw [pow_63]; omega), ← h, Int64.ofInt_toInt]
    | @uint u hhigh h =>
      have hlt := u.toNat_lt
      rw [if_neg (by omega), if_pos ⟨hhigh, by rw [pow_64]; omega⟩, ← h, Int.toNat_natCast,
        UInt64.ofNat_toNat]

theorem exists_integerLiteral_iff {text : String} :
    (∃ v, Parser.integerLiteral text = some v) ↔
      -Int.pow 2 63 ≤ value text.toList ∧ value text.toList < Int.pow 2 64 := by
  rw [integerLiteral_eq, pow_63, pow_64]
  split
  · next h => exact ⟨fun _ => by omega, fun _ => ⟨_, rfl⟩⟩
  · split
    · next h => exact ⟨fun _ => by omega, fun _ => ⟨_, rfl⟩⟩
    · next hint huint =>
      constructor
      · rintro ⟨v, hv⟩
        cases hv
      · intro h
        omega

theorem Keeps.fits_uint_iff (h : Keeps n v) : v.fits .uint ↔ 0 ≤ n := by
  cases h with
  | @int i h =>
    rw [← h]
    simp [Literal.fits, Int64.le_iff_toInt_le]
  | uint high h =>
    rw [pow_63] at high
    exact ⟨fun _ => by omega, fun _ => rfl⟩

theorem Keeps.fits_number (h : Keeps n v) : v.fits .int ∧ v.fits .float := by
  cases h with
  | int h => exact ⟨rfl, rfl⟩
  | uint high h => exact ⟨rfl, rfl⟩

theorem Keeps.text_eq (h : Keeps n v) : Output.TypeScript.literal v = toString n := by
  cases h with
  | int h => rw [Output.TypeScript.literal, h]
  | uint high h => rw [Output.TypeScript.literal, ← h]; rfl

end Literal

section Canonical

/-- Digits without a needless zero in front. -/
structure Plain (ds : List Char) : Prop where
  nonempty : ds ≠ []
  digits : ∀ d ∈ ds, d.isDigit
  leading : ds.head? = some '0' → ds = ['0']

/-- The one way to write a number: no needless zero, and no minus before zero. -/
inductive Canonical : List Char → Prop
  | natural {ds : List Char} (h : Plain ds) : Canonical ds
  | negative {ds : List Char} (h : Plain ds) (hzero : ds ≠ ['0']) : Canonical ('-' :: ds)

theorem head_toDigits {m : Nat} (hm : 0 < m) : (Nat.toDigits 10 m).head? ≠ some '0' := by
  -- on the number without its last digit
  induction m using Nat.strongRecOn with
  | ind m ih =>
    by_cases hlt : m < 10
    · rw [Nat.toDigits_of_lt_base hlt]
      intro hzero
      have hchar : ∀ k < 10, 0 < k → Nat.digitChar k ≠ '0' := by decide
      exact hchar m hlt hm (Option.some.inj hzero)
    · have hfront : (Nat.toDigits 10 (m / 10)).head? ≠ some '0' := ih _ (by omega) (by omega)
      rw [Nat.toDigits_of_base_le (by decide) (by omega),
        List.head?_append_of_ne_nil _ Nat.toDigits_ne_nil]
      exact hfront

theorem plain_toDigits (m : Nat) : Plain (Nat.toDigits 10 m) := by
  refine ⟨Nat.toDigits_ne_nil, ?_, ?_⟩
  · intro d hd
    exact Nat.isDigit_of_mem_toDigits (by decide) (by decide) hd
  · intro h
    rcases Nat.eq_zero_or_pos m with rfl | hm
    · rfl
    · exact absurd h (head_toDigits hm)

theorem Plain.head_ne (h : Plain ds) : ds.head? ≠ some '-' := by
  intro hhead
  have hdigit := h.digits _ (List.mem_of_mem_head? hhead)
  exact absurd hdigit (by decide)

theorem places_toDigits (m : Nat) : places (Nat.toDigits 10 m) = m := by
  rw [← digitsValue_eq_places, digitsValue_toDigits]

theorem toList_toString_neg {m : Nat} :
    (toString (Int.negSucc m)).toList = '-' :: Nat.toDigits 10 (m + 1) := by
  have htext : toString (Int.negSucc m) = "-" ++ Nat.repr (m + 1) := rfl
  rw [htext, Nat.repr_eq_ofList_toDigits, String.toList_append]
  simp

theorem toList_toString_ofNat {m : Nat} :
    (toString (Int.ofNat m)).toList = Nat.toDigits 10 m := by
  have htext : toString (Int.ofNat m) = Nat.repr m := rfl
  rw [htext, Nat.repr_eq_ofList_toDigits, String.toList_ofList]

theorem canonical_toString (n : Int) : Canonical (toString n).toList := by
  cases n with
  | ofNat m =>
    rw [toList_toString_ofNat]
    exact .natural (plain_toDigits m)
  | negSucc m =>
    rw [toList_toString_neg]
    refine .negative (plain_toDigits _) ?_
    intro hzero
    exact head_toDigits (Nat.succ_pos m) (by rw [hzero]; rfl)

theorem value_toString (n : Int) : value (toString n).toList = n := by
  cases n with
  | ofNat m =>
    rw [toList_toString_ofNat, value_natural (plain_toDigits m).head_ne, places_toDigits]
    rfl
  | negSucc m =>
    rw [toList_toString_neg, value_negative, places_toDigits]
    rfl

theorem digitChar_digit (h : d.isDigit) : Nat.digitChar (digit d) = d ∧ digit d < 10 := by
  obtain ⟨hlow, hhigh⟩ := Char.isDigit_iff_toNat.mp h
  have hall : ∀ k < 58, 48 ≤ k → Nat.digitChar (k - 48) = Char.ofNat k ∧ k - 48 < 10 := by decide
  have hd := hall d.toNat (Nat.lt_succ_of_le hhigh) hlow
  rwa [Char.ofNat_toNat] at hd

theorem Plain.front (h : Plain (ds ++ [d])) (hne : ds ≠ []) : Plain ds ∧ ds ≠ ['0'] := by
  have hlead : ds.head? ≠ some '0' := by
    intro hzero
    have hall := h.leading (by rw [List.head?_append_of_ne_nil _ hne, hzero])
    have hlen := congrArg List.length hall
    rw [List.length_append, List.length_singleton, List.length_singleton] at hlen
    exact hne (List.length_eq_zero_iff.mp (by omega))
  constructor
  · exact ⟨hne, fun c hc => h.digits c (List.mem_append_left _ hc), fun hzero => absurd hzero hlead⟩
  · rintro rfl
    exact hlead rfl

theorem Plain.toDigits_places (h : Plain ds) : Nat.toDigits 10 (places ds) = ds := by
  induction ds using List.reverseRecOn with
  | nil => exact absurd rfl h.nonempty
  | append_singleton ds d ih =>
    obtain ⟨hchar, hlt⟩ := digitChar_digit (h.digits d (by simp))
    rw [places_concat]
    by_cases hne : ds = []
    · subst hne
      rw [places_nil, Nat.mul_zero, Nat.zero_add, Nat.toDigits_of_lt_base hlt, hchar]
      rfl
    · obtain ⟨hplain, hzero⟩ := h.front hne
      have hfront := ih hplain
      have hpos : 0 < places ds := by
        apply Nat.pos_of_ne_zero
        intro h0
        rw [h0] at hfront
        exact hzero hfront.symm
      rw [← Nat.toDigits_append_toDigits (by decide) hpos hlt, hfront,
        Nat.toDigits_of_lt_base hlt, hchar]

/-- A canonical numeral is determined by its value. -/
theorem Canonical.eq_toString (h : Canonical cs) : cs = (toString (value cs)).toList := by
  cases h with
  | natural h =>
    rw [value_natural h.head_ne]
    exact (toList_toString_ofNat.trans h.toDigits_places).symm
  | @negative ds h hzero =>
    cases hplaces : places ds with
    | zero =>
      have hdigits := h.toDigits_places
      rw [hplaces] at hdigits
      exact absurd hdigits.symm hzero
    | succ m =>
      have hvalue : value ('-' :: ds) = Int.negSucc m := by
        rw [value_negative, hplaces]
        rfl
      rw [hvalue, toList_toString_neg, ← hplaces, h.toDigits_places]

end Canonical

end Numeral

end TypeGraph.Schema
