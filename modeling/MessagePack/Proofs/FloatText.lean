import MessagePack.Proofs.Shortest
import MessagePack.Proofs.Wording
/-
  The text of a double, read back. It has the digits of a decimal, maybe with a point between two of them, and maybe
  an exponent. Where the point goes and how many zeros fill the gaps depends on the layout, but not what the text
  says.

  What is proved:
    1. `FloatLayout.read?_decimal`: the text of a decimal is that of its number.
    2. `FloatLayout.read?_write`: the text of a double says its sign and a decimal that is read as the double, or
       that it is no number.
    3. `FloatLayout.write_inj`: doubles with the same text are the same.
-/
namespace MessagePack

/-! ## Reading -/

/-- The digits at the front of a text, and what is behind them. -/
def Digits.span (text : List Char) : List Char × List Char :=
  (text.takeWhile fun c => (Digits.value? 10 c).isSome, text.dropWhile fun c => (Digits.value? 10 c).isSome)

theorem Digits.span_append {digits behind : List Char} (hdigits : ∀ c ∈ digits, (Digits.value? 10 c).isSome)
    (hstop : ∀ c, behind.head? = some c → Digits.value? 10 c = none) :
    span (digits ++ behind) = (digits, behind) := by
  have htake := takeWhile_digits hdigits hstop
  have hall := List.takeWhile_append_dropWhile (p := fun c => (Digits.value? 10 c).isSome) (l := digits ++ behind)
  rw [htake] at hall
  rw [span, htake, List.append_cancel_left hall]

namespace Decimal

/-- The digits behind a point, if there is one, and what is behind them. -/
def fraction? : List Char → Option (List Char × List Char)
  | '.' :: text => if (Digits.span text).1 = [] then none else some (Digits.span text)
  | text => some ([], text)

/-- The exponent behind the digits; zero if there is none. -/
def exponent? : List Char → Option ℤ
  | [] => some 0
  | 'e' :: '-' :: text => if text = [] then none else (Digits.number? 10 text).map fun n => -(n : ℤ)
  | 'e' :: text => if text = [] then none else (Digits.number? 10 text).map fun n => (n : ℤ)
  | _ => none

/-- The decimal in a text. The digits behind a point lower the exponent. -/
def read? (text : List Char) : Option Decimal :=
  let (whole, behind) := Digits.span text
  if whole = [] then none
  else (fraction? behind).bind fun (fraction, behind) =>
    (Digits.number? 10 (whole ++ fraction)).bind fun n =>
      (exponent? behind).map fun e => ⟨n, e - fraction.length⟩

/-- What may stand behind the digits: nothing, or an exponent. -/
inductive Exponent : List Char → ℤ → Prop where
  | none : Exponent [] 0
  | written (e : ℤ) : Exponent ('e' :: (toString e).toList) e

section
variable {behind : List Char} {e : ℤ}

theorem Exponent.stops (h : Exponent behind e) {c : Char} (hc : behind.head? = some c) :
    Digits.value? 10 c = Option.none := by
  cases h with
  | none => cases hc
  | written e =>
    cases hc
    decide

theorem Exponent.fraction?_eq (h : Exponent behind e) : fraction? behind = some ([], behind) := by
  cases h with
  | none => rfl
  | written e => rfl

theorem toList_ofNat (n : ℕ) : (toString (Int.ofNat n)).toList = Nat.toDigits 10 n := String.toList_ofList

theorem toList_negSucc (n : ℕ) : (toString (Int.negSucc n)).toList = '-' :: Nat.toDigits 10 (n + 1) := by
  simp [toString, Int.repr, Nat.repr]

theorem exponent?_of_digits {text : List Char} {n : ℕ} (h : Spells 10 text n) :
    exponent? ('e' :: text) = some (n : ℤ) := by
  unfold exponent?
  split
  case h_1 heq => cases heq
  case h_2 _ _ heq =>
    -- A minus sign is no digit.
    cases heq
    exact absurd (h.digits '-' List.mem_cons_self) (by decide)
  case h_3 _ _ heq =>
    cases heq
    rw [if_neg h.nonempty, h.number]
    rfl
  case h_4 hother => exact absurd rfl (hother text)

theorem Exponent.exponent?_eq (h : Exponent behind e) : exponent? behind = some e := by
  cases h with
  | none => rfl
  | written e =>
    cases e with
    | ofNat n =>
      rw [toList_ofNat]
      exact exponent?_of_digits (spells_decimal n)
    | negSucc n =>
      have hn := spells_decimal (n + 1)
      rw [toList_negSucc, exponent?, if_neg hn.nonempty, hn.number]
      rfl

variable {whole fraction : List Char} {n : ℕ}

/-- Digits without a point. -/
theorem read?_whole (hwhole : Spells 10 whole n) (hbehind : Exponent behind e) :
    read? (whole ++ behind) = some ⟨n, e⟩ := by
  rw [read?, Digits.span_append hwhole.digits fun c => hbehind.stops]
  simp only [hwhole.nonempty, if_false, hbehind.fraction?_eq, Option.bind_some, List.append_nil, hwhole.number,
    hbehind.exponent?_eq, Option.map_some, List.length_nil, Nat.cast_zero, sub_zero]

/-- Digits with a point. -/
theorem read?_point (hwhole : whole ≠ []) (hfraction : fraction ≠ []) (h : Spells 10 (whole ++ fraction) n)
    (hbehind : Exponent behind e) :
    read? (whole ++ '.' :: (fraction ++ behind)) = some ⟨n, e - fraction.length⟩ := by
  have hpoint (c : Char) (hc : ('.' :: (fraction ++ behind)).head? = some c) : Digits.value? 10 c = none := by
    cases hc
    decide
  have hfirst := Digits.span_append (fun c hc => h.digits c (List.mem_append_left _ hc)) hpoint
  have hsecond := Digits.span_append (fun c hc => h.digits c (List.mem_append_right _ hc)) fun c => hbehind.stops
  rw [read?, hfirst]
  simp only [hwhole, if_false, fraction?, hsecond, hfraction, Option.bind_some, h.number, hbehind.exponent?_eq,
    Option.map_some]

/-- The text of a decimal starts with a digit. -/
theorem head_of_read? {text : List Char} {d : Decimal} (h : read? text = some d) :
    ∃ c rest, text = c :: rest ∧ (Digits.value? 10 c).isSome := by
  cases text with
  | nil => cases h
  | cons c rest =>
    refine ⟨c, rest, rfl, ?_⟩
    by_contra hc
    have hwhole : (Digits.span (c :: rest)).1 = [] := by simp [Digits.span, hc]
    rw [read?, ← Prod.mk.eta (p := Digits.span (c :: rest)), hwhole] at h
    cases h

end

end Decimal

/-! ## Layouts -/

namespace FloatLayout

/-- In full, the digits may get zeros behind them. -/
theorem read?_positional (layout : FloatLayout) {digits : List Char} {n : ℕ} (h : Spells 10 digits n) (e : ℤ) :
    ∃ j : ℕ, Decimal.read? (layout.positional digits (digits.length + e)) = some ⟨n * 10 ^ j, e - j⟩ := by
  have hlength : 0 < digits.length := List.length_pos_iff.2 h.nonempty
  unfold positional
  split
  case isTrue hpoint =>
    -- The zeros in front of the digits do not count.
    generalize hz : (-(digits.length + e)).toNat = z
    have hspells : Spells 10 (['0'] ++ (List.replicate z '0' ++ digits)) n := h.zeros (by decide) (z + 1)
    have hfraction : List.replicate z '0' ++ digits ≠ [] := List.append_ne_nil_of_right_ne_nil _ h.nonempty
    have hread := Decimal.read?_point (List.cons_ne_nil _ _) hfraction hspells .none
    rw [List.append_nil] at hread
    refine ⟨0, hread.trans ?_⟩
    have hexponent : 0 - ((List.replicate z '0' ++ digits).length : ℤ) = e - (0 : ℕ) := by
      rw [List.length_append, List.length_replicate]
      omega
    rw [hexponent, Nat.pow_zero, Nat.mul_one]
  case isFalse hpoint =>
    split
    case isTrue hwhole =>
      generalize hz : (digits.length + e).toNat - digits.length = z
      have hspells := h.append_zeros (by decide) z
      cases layout.markWhole with
      | false =>
        refine ⟨z, (Decimal.read?_whole hspells .none).trans ?_⟩
        have hexponent : (0 : ℤ) = e - z := by omega
        rw [hexponent]
      | true =>
        have hmarked : Spells 10 (digits ++ List.replicate z '0' ++ ['0']) (n * 10 ^ (z + 1)) := by
          rw [Nat.pow_succ, ← Nat.mul_assoc]
          exact hspells.append_zeros (by decide) 1
        have hread := Decimal.read?_point hspells.nonempty (List.cons_ne_nil _ _) hmarked .none
        refine ⟨z + 1, hread.trans ?_⟩
        have hexponent : 0 - ((['0'] : List Char).length : ℤ) = e - (z + 1 : ℕ) := by
          simp only [List.length_singleton]
          omega
        rw [hexponent]
    case isFalse hinside =>
      generalize hp : (digits.length + e).toNat = p at hinside ⊢
      have hspells : Spells 10 (digits.take p ++ digits.drop p) n := by rwa [List.take_append_drop]
      have htake : digits.take p ≠ [] := by
        rw [← List.length_pos_iff, List.length_take]
        omega
      have hdrop : digits.drop p ≠ [] := by
        rw [← List.length_pos_iff, List.length_drop]
        omega
      have hread := Decimal.read?_point htake hdrop hspells .none
      rw [List.append_nil] at hread
      refine ⟨0, hread.trans ?_⟩
      have hexponent : 0 - ((digits.drop p).length : ℤ) = e - (0 : ℕ) := by
        rw [List.length_drop]
        omega
      rw [hexponent, Nat.pow_zero, Nat.mul_one]

/-- With an exponent, the point is behind the first digit. -/
theorem read?_scientific {digits : List Char} {n : ℕ} (h : Spells 10 digits n) (e : ℤ) :
    Decimal.read? (scientific digits (digits.length + e)) = some ⟨n, e⟩ := by
  unfold scientific
  simp only
  split
  case h_1 first second rest =>
    have hread := Decimal.read?_point (List.cons_ne_nil first []) (List.cons_ne_nil second rest) h
      (.written ((first :: second :: rest).length + e - 1))
    have hexponent : ((first :: second :: rest).length : ℤ) + e - 1 - ((second :: rest).length : ℤ) = e := by
      simp only [List.length_cons]
      omega
    rw [hexponent] at hread
    exact hread
  case h_2 hshort =>
    have hread := Decimal.read?_whole h (.written (digits.length + e - 1))
    have hlength : digits.length = 1 := by
      rcases digits with _ | ⟨first, _ | ⟨second, rest⟩⟩
      · exact absurd rfl h.nonempty
      · rfl
      · exact absurd rfl (hshort first second rest)
    have hexponent : (digits.length : ℤ) + e - 1 = e := by omega
    rw [hexponent] at hread ⊢
    exact hread

/-- The text of a decimal is that of its number. -/
theorem read?_decimal (layout : FloatLayout) (d : Decimal) :
    ∃ d', Decimal.read? (layout.decimal d) = some d' ∧ d'.value = d.value := by
  obtain ⟨n, e⟩ := d
  have hspells := spells_decimal n
  obtain ⟨j, hfull⟩ := layout.read?_positional hspells e
  have hvalue : (⟨n * 10 ^ j, e - j⟩ : Decimal).value = (⟨n, e⟩ : Decimal).value := by
    have hpower : (10 : ℚ) ^ e = 10 ^ j * 10 ^ (e - j) := by
      rw [← zpow_natCast, ← zpow_add₀ (by norm_num), add_sub_cancel]
    simp only [Decimal.value, hpower]
    push_cast
    ring
  unfold decimal
  simp only
  split
  case h_1 => exact ⟨_, hfull, hvalue⟩
  case h_2 least most _ =>
    split
    · exact ⟨_, hfull, hvalue⟩
    · exact ⟨_, read?_scientific hspells e, rfl⟩

end FloatLayout

/-! ## The text of a double -/

/-- What the text of a double says. -/
inductive FloatText where
  | nan
  | infinite (negative : Bool)
  | finite (negative : Bool) (d : Decimal)
  deriving DecidableEq, Repr

namespace FloatText

/-- What a text without a sign says. -/
def magnitude? (negative : Bool) (text : List Char) : Option FloatText :=
  if text = "inf".toList then some (.infinite negative) else (Decimal.read? text).map (.finite negative)

def read? (text : String) : Option FloatText :=
  if text = "NaN" then some .nan
  else match text.toList with
    | '-' :: text => magnitude? true text
    | text => magnitude? false text

/-- The text of a decimal, with a sign in front of it. -/
theorem read?_signed {text : List Char} {d : Decimal} (h : Decimal.read? text = some d) (negative : Bool) :
    read? (String.ofList (if negative then '-' :: text else text)) = some (.finite negative d) := by
  obtain ⟨c, rest, rfl, hc⟩ := Decimal.head_of_read? h
  have hminus : c ≠ '-' := by
    rintro rfl
    exact absurd hc (by decide)
  have hmagnitude (negative : Bool) : magnitude? negative (c :: rest) = some (.finite negative d) := by
    have hinfinite : c :: rest ≠ "inf".toList := by
      intro heq
      obtain rfl : c = 'i' := List.head_eq_of_cons_eq heq
      exact absurd hc (by decide)
    rw [magnitude?, if_neg hinfinite, h]
    rfl
  have hnan (first : Char) (others : List Char) (hfirst : first ≠ 'N') :
      String.ofList (first :: others) ≠ "NaN" := by
    intro heq
    have hchars : first :: others = "NaN".toList := by rw [← heq, String.toList_ofList]
    exact hfirst (List.head_eq_of_cons_eq hchars)
  cases negative with
  | true =>
    rw [if_pos rfl, read?, if_neg (hnan _ _ (by decide)), String.toList_ofList]
    exact hmagnitude true
  | false =>
    have hc' : c ≠ 'N' := by
      rintro rfl
      exact absurd hc (by decide)
    rw [if_neg Bool.false_ne_true, read?, if_neg (hnan _ _ hc'), String.toList_ofList]
    split
    case h_1 heq => exact absurd (List.head_eq_of_cons_eq heq) hminus
    case h_2 => exact hmagnitude false

/-- Whether this is said of a double. -/
def Tells : FloatText → Binary64 → Prop
  | nan, x => x.isNaN
  | infinite negative, x => x.isInfinite ∧ x.isNegative = negative
  | finite negative d, x => d.RoundsTo x ∧ d.value = x.shortest.value ∧ x.isNegative = negative

/-- The same is said of one double only, but for those that are no number. -/
theorem Tells.unique {said : FloatText} {x y : Binary64} (hx : said.Tells x) (hy : said.Tells y)
    (hnumber : ¬ x.isNaN) : x = y := by
  cases said with
  | nan => exact absurd hx hnumber
  | infinite negative =>
    obtain ⟨hx, hxsign⟩ := hx
    obtain ⟨hy, hysign⟩ := hy
    simp only [Binary64.isInfinite, Bool.and_eq_true, decide_eq_true_eq] at hx hy
    exact Binary64.ext_fields (hxsign.trans hysign.symm) (hx.1.trans hy.1.symm) (hx.2.trans hy.2.symm)
  | finite negative d =>
    obtain ⟨hx, _, hxsign⟩ := hx
    obtain ⟨hy, _, hysign⟩ := hy
    obtain ⟨hexponent, hfraction⟩ := Binary64.fields_eq_of_steps (congrArg Dyadic.steps (hx.unique hy))
    exact Binary64.ext_fields (hxsign.trans hysign.symm) hexponent hfraction

end FloatText

namespace FloatLayout

/-- The text of a double says its sign and a decimal that is read as the double, or that it is no number. -/
theorem read?_write (layout : FloatLayout) (x : Binary64) :
    ∃ said, FloatText.read? (layout.write x) = some said ∧ said.Tells x := by
  unfold write
  split
  case isTrue hnan => exact ⟨.nan, rfl, hnan⟩
  case isFalse hnumber =>
    split
    case isTrue hinfinite =>
      refine ⟨.infinite x.isNegative, ?_, hinfinite, rfl⟩
      cases x.isNegative
      · decide
      · decide
    case isFalse hinfinite =>
      obtain ⟨d, hread, hvalue⟩ := layout.read?_decimal x.shortest
      have hshortest := Binary64.roundsTo_shortest (Binary64.finite_of_not hnumber hinfinite)
      exact ⟨.finite x.isNegative d, FloatText.read?_signed hread _, hshortest.of_value hvalue, hvalue, rfl⟩

/-- Doubles with the same text are the same, but for those that are no number. -/
theorem write_inj (layout : FloatLayout) {x y : Binary64} (hx : ¬ x.isNaN) (h : layout.write x = layout.write y) :
    x = y := by
  obtain ⟨said, hread, htells⟩ := layout.read?_write x
  obtain ⟨said', hread', htells'⟩ := layout.read?_write y
  rw [h, hread'] at hread
  obtain rfl : said' = said := Option.some.inj hread
  exact htells.unique htells' hx

/-- Half of three in both layouts, and a billionth with an exponent. -/
example : write ⟨none, false⟩ ⟨0x3ff8000000000000⟩ = "1.5" ∧ write ⟨none, false⟩ ⟨0xbff0000000000000⟩ = "-1" ∧
    write ⟨some (-3, 16), true⟩ ⟨0x3e112e0be826d695⟩ = "1e-9" := by decide +kernel

/-! ## Its characters -/

/-- A digit, or one of the other characters in the text of a double. -/
def Written (c : Char) : Prop := (Digits.value? 10 c).isSome ∨ c ∈ ['.', '-', 'e', 'i', 'n', 'f', 'N', 'a']

instance (c : Char) : Decidable (Written c) := inferInstanceAs (Decidable (_ ∨ _))

theorem written_of_all {text : List Char} (h : text.all (fun c => Written c) = true) : ∀ c ∈ text, Written c :=
  fun c hc => of_decide_eq_true (List.all_eq_true.1 h c hc)

theorem written_toDigits (n : ℕ) : ∀ c ∈ Nat.toDigits 10 n, Written c :=
  fun c hc => .inl ((spells_decimal n).digits c hc)

theorem written_int (v : ℤ) : ∀ c ∈ (toString v).toList, Written c := by
  cases v with
  | ofNat n =>
    rw [Decimal.toList_ofNat]
    exact written_toDigits n
  | negSucc n =>
    rw [Decimal.toList_negSucc]
    exact List.forall_mem_cons.2 ⟨by decide, written_toDigits (n + 1)⟩

section
variable {digits : List Char} (h : ∀ c ∈ digits, Written c) (point : ℤ)
include h

theorem written_positional (layout : FloatLayout) : ∀ c ∈ layout.positional digits point, Written c := by
  have hzeros (n : ℕ) : ∀ c ∈ List.replicate n '0', Written c := by
    intro c hc
    rw [List.eq_of_mem_replicate hc]
    decide
  unfold positional
  split
  · have hdigits := List.forall_mem_append.2 ⟨hzeros (-point).toNat, h⟩
    exact List.forall_mem_cons.2 ⟨by decide, List.forall_mem_cons.2 ⟨by decide, hdigits⟩⟩
  · split
    · refine List.forall_mem_append.2 ⟨List.forall_mem_append.2 ⟨h, hzeros _⟩, ?_⟩
      split
      · exact written_of_all (by decide)
      · exact List.forall_mem_nil _
    · refine List.forall_mem_append.2 ⟨fun c hc => h c (List.mem_of_mem_take hc), ?_⟩
      exact List.forall_mem_cons.2 ⟨by decide, fun c hc => h c (List.mem_of_mem_drop hc)⟩

theorem written_scientific : ∀ c ∈ scientific digits point, Written c := by
  unfold scientific
  simp only
  refine List.forall_mem_append.2 ⟨?_, List.forall_mem_cons.2 ⟨by decide, written_int _⟩⟩
  split
  case h_1 first second rest =>
    obtain ⟨hfirst, hrest⟩ := List.forall_mem_cons.1 h
    exact List.forall_mem_cons.2 ⟨hfirst, List.forall_mem_cons.2 ⟨by decide, hrest⟩⟩
  case h_2 => exact h

end

/-- The text of a double has digits and a few other characters only. -/
theorem written_write (layout : FloatLayout) (x : Binary64) : ∀ c ∈ (layout.write x).toList, Written c := by
  have hdecimal : ∀ c ∈ layout.decimal x.shortest, Written c := by
    have hdigits := written_toDigits x.shortest.digits
    unfold decimal
    simp only
    split
    · exact written_positional hdigits _ layout
    · split
      · exact written_positional hdigits _ layout
      · exact written_scientific hdigits _
  unfold write
  split
  · exact written_of_all (by decide)
  · have hmagnitude : ∀ c ∈ (if x.isInfinite then "inf".toList else layout.decimal x.shortest), Written c := by
      split
      · exact written_of_all (by decide)
      · exact hdecimal
    rw [String.toList_ofList]
    split
    · exact List.forall_mem_cons.2 ⟨by decide, hmagnitude⟩
    · exact hmagnitude

end FloatLayout
end MessagePack
