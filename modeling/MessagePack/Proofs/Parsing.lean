import Mathlib.Algebra.Group.Int.Defs
import Mathlib.Algebra.Group.Nat.Defs
import MessagePack.Item
/-
  What a document can say. A number is read digit by digit and only as long as it stays within 64 bits, so no
  document spells an integer that a call on a writer could not be made with. The same goes for every number
  inside the document, however deep; that is followed from the digits to the lexemes, from the lexemes to the
  tree, and from the tree to the items.

  What is proved:
    1. `Json.Literal.fits_of_value?`: an integer that is read fits into 64 bits, with or without a sign.
    2. `Json.Scanner.fits_step`, `Json.Reading.fits_step`: a scan and a reading keep to such numbers.
    3. `Json.Tree.fits_of_parse?`: so does the tree of a document.
    4. `Item.parsed_of_parseAll?`: the items of a document are of the five kinds that a document can say.
-/
namespace MessagePack

/-- What every step of a fold keeps, the whole fold keeps, if it comes to its end. -/
theorem foldlM_keeps {α σ : Type} {P : σ → Prop} {Q : α → Prop} {f : σ → α → Option σ}
    (hstep : ∀ {s s' a}, f s a = some s' → P s → Q a → P s') {as : List α} {s s' : σ}
    (h : as.foldlM f s = some s') (hs : P s) (has : ∀ a ∈ as, Q a) : P s' := by
  induction as generalizing s with
  | nil =>
    cases h
    exact hs
  | cons a as ih =>
    obtain ⟨ha, hrest⟩ := List.forall_mem_cons.1 has
    rw [List.foldlM_cons] at h
    obtain ⟨next, hnext, hlast⟩ := Option.bind_eq_some_iff.1 h
    exact ih hlast (hstep hnext hs ha) hrest

namespace Json

/-! ## Numbers -/

/-- An integer that fits into 64 bits, with a sign or without one; or a double. -/
def Number.Fits : Number → Prop
  | .integer v => -(2 : Int) ^ 63 ≤ v ∧ v ≤ wordMax
  | .float _ => True

theorem Literal.append_le {n : Nat} (h : n ≤ wordMax) (ds : List Nat) : (append n ds).1 ≤ wordMax := by
  induction ds generalizing n with
  | nil => exact h
  | cons d ds ih =>
    unfold append
    split
    · exact h
    · exact ih (by omega)

theorem Literal.fits_of_value? {l : Literal} {n : Number} (h : l.value? = some n) : n.Fits := by
  -- The digits in front of the point stay within 64 bits; with a minus in front they are compared once more.
  have hword := append_le (Nat.zero_le wordMax) l.whole
  unfold value? at h
  generalize append 0 l.whole = digits at h hword
  obtain ⟨whole, dropped⟩ := digits
  simp only at h hword
  split at h
  case isTrue =>
    split at h
    case isTrue =>
      cases h
      exact ⟨by omega, Int.ofNat_le.2 hword⟩
    case isFalse =>
      split at h
      case isTrue hrange =>
        cases h
        have hlow : whole ≤ 2 ^ 63 := hrange.2
        exact ⟨by omega, by omega⟩
      case isFalse =>
        cases h
        trivial
  case isFalse =>
    obtain ⟨x, _, rfl⟩ := Option.map_eq_some_iff.1 h
    trivial

/-! ## Lexemes -/

def Scalar.Fits : Scalar → Prop
  | .number n => n.Fits
  | _ => True

def Lexeme.Fits : Lexeme → Prop
  | .scalar v => v.Fits
  | _ => True

theorem Scalar.fits_of_word {cs : List Char} {v : Scalar} (h : ofWord? cs = some v) : v.Fits := by
  unfold ofWord? at h
  repeat' split at h
  case isFalse.isFalse.isFalse =>
    obtain ⟨n, hn, rfl⟩ := Option.map_eq_some_iff.1 h
    obtain ⟨l, _, hl⟩ := Option.bind_eq_some_iff.1 hn
    exact Literal.fits_of_value? hl
  all_goals
    cases h
    trivial

theorem Lexeme.fits_of_sign {c : Char} {l : Lexeme} (h : ofSign? c = some l) : l.Fits := by
  unfold ofSign? at h
  split at h <;> cases h <;> trivial

namespace Scanner

/-- A scan that has found only numbers that fit. -/
def Fits (s : Scanner) : Prop := ∀ l ∈ s.lexemes, l.Fits

theorem fits_between {lexemes : List Lexeme} (h : ∀ l ∈ lexemes, l.Fits) (c : Char) :
    (between lexemes c).Fits := by
  unfold between
  split
  · exact h
  · split
    · exact h
    · split
      case h_1 l hl => exact List.forall_mem_cons.2 ⟨Lexeme.fits_of_sign hl, h⟩
      case h_2 => exact h

theorem fits_word {cs : List Char} {v : Scalar} (hv : Scalar.ofWord? cs = some v) {lexemes : List Lexeme}
    (h : ∀ l ∈ lexemes, l.Fits) : ∀ l ∈ Lexeme.scalar v :: lexemes, l.Fits :=
  List.forall_mem_cons.2 ⟨Scalar.fits_of_word hv, h⟩

/-- Only a word makes a number, and where it ends its number fits. -/
theorem fits_step {s s' : Scanner} {c : Char} (h : s.step c = some s') (hs : s.Fits) : s'.Fits := by
  obtain ⟨mode, lexemes⟩ := s
  cases mode with
  | between =>
    cases h
    exact fits_between hs c
  | word letters =>
    simp only [step] at h
    split at h
    · obtain ⟨v, hv, rfl⟩ := Option.map_eq_some_iff.1 h
      exact fits_between (fits_word hv hs) c
    · cases h
      exact hs
  | text chars =>
    simp only [step] at h
    split at h
    · cases h
      exact List.forall_mem_cons.2 ⟨trivial, hs⟩
    · split at h
      · cases h
        exact hs
      · split at h
        · cases h
        · cases h
          exact hs
  | escape chars =>
    simp only [step] at h
    split at h
    · cases h
      exact hs
    · obtain ⟨e, _, rfl⟩ := Option.map_eq_some_iff.1 h
      exact hs
  | unit chars high left value =>
    simp only [step] at h
    obtain ⟨d, _, h⟩ := Option.bind_eq_some_iff.1 h
    split at h
    · obtain ⟨next, _, rfl⟩ := Option.map_eq_some_iff.1 h
      exact hs
    · cases h
      exact hs
  | pairBackslash chars high | pairLetter chars high =>
    simp only [step] at h
    split at h
    · cases h
      exact hs
    · cases h

theorem fits_finish {s : Scanner} {found : List Lexeme} (h : s.finish = some found) (hs : s.Fits) :
    ∀ l ∈ found, l.Fits := by
  unfold finish at h
  split at h
  · cases h
    exact fun l hl => hs l (List.mem_reverse.1 hl)
  · obtain ⟨v, hv, rfl⟩ := Option.map_eq_some_iff.1 h
    exact fun l hl => fits_word hv hs l (List.mem_reverse.1 hl)
  · cases h

end Scanner

theorem fits_of_lexemes? {cs : List Char} {found : List Lexeme} (h : lexemes? cs = some found) :
    ∀ l ∈ found, l.Fits := by
  obtain ⟨s, hs, hfinish⟩ := Option.bind_eq_some_iff.1 h
  have hstart : Scanner.Fits ⟨.between, []⟩ := by
    intro l hl
    cases hl
  have hkept : s.Fits := foldlM_keeps (Q := fun _ => True)
    (fun hstep hfits _ => Scanner.fits_step hstep hfits) hs hstart (fun _ _ => trivial)
  exact Scanner.fits_finish hfinish hkept

/-! ## Trees -/

/-- A value all numbers of which fit. -/
inductive Tree.Fits : Tree → Prop where
  | scalar (v : Scalar) (h : v.Fits) : Fits (.scalar v)
  | text (s : String) : Fits (.text s)
  | array (items : List Tree) (h : ∀ t ∈ items, t.Fits) : Fits (.array items)
  | object (members : List (String × Tree)) (h : ∀ m ∈ members, m.2.Fits) : Fits (.object members)

def Frame.Fits : Frame → Prop
  | .array items => ∀ t ∈ items, t.Fits
  | .object members => ∀ m ∈ members, m.2.Fits
  | .member members _ => ∀ m ∈ members, m.2.Fits

def Awaiting.Fits : Awaiting → Prop
  | .nothing document => document.Fits
  | _ => True

namespace Reading

/-- A reading that has put together only values that fit. -/
structure Fits (r : Reading) : Prop where
  awaiting : r.awaiting.Fits
  frames : ∀ f ∈ r.frames, f.Fits

theorem fits_place {v : Tree} {frames : List Frame} {r : Reading} (h : place v frames = some r)
    (hv : v.Fits) (hframes : ∀ f ∈ frames, f.Fits) : r.Fits := by
  unfold place at h
  split at h
  case h_1 =>
    cases h
    exact ⟨hv, hframes⟩
  case h_2 items rest =>
    cases h
    obtain ⟨hitems, hrest⟩ := List.forall_mem_cons.1 hframes
    exact ⟨trivial, List.forall_mem_cons.2 ⟨List.forall_mem_cons.2 ⟨hv, hitems⟩, hrest⟩⟩
  case h_3 members key rest =>
    cases h
    obtain ⟨hmembers, hrest⟩ := List.forall_mem_cons.1 hframes
    exact ⟨trivial, List.forall_mem_cons.2 ⟨List.forall_mem_cons.2 ⟨hv, hmembers⟩, hrest⟩⟩
  case h_4 => cases h

theorem fits_enter {frame : Frame} {awaiting : Awaiting} {frames : List Frame} {r : Reading}
    (h : enter frame awaiting frames = some r) (hframe : frame.Fits) (hawaiting : awaiting.Fits)
    (hframes : ∀ f ∈ frames, f.Fits) : r.Fits := by
  unfold enter at h
  split at h
  · cases h
    exact ⟨hawaiting, List.forall_mem_cons.2 ⟨hframe, hframes⟩⟩
  · cases h

/-- An array that is closed holds what its frame has held. -/
theorem fits_closeArray {items : List Tree} {rest : List Frame} {r : Reading}
    (h : place (.array items.reverse) rest = some r) (hframes : ∀ f ∈ Frame.array items :: rest, f.Fits) :
    r.Fits := by
  obtain ⟨hitems, hrest⟩ := List.forall_mem_cons.1 hframes
  exact fits_place h (.array _ fun t ht => hitems t (List.mem_reverse.1 ht)) hrest

theorem fits_closeObject {members : List (String × Tree)} {rest : List Frame} {r : Reading}
    (h : place (.object members.reverse) rest = some r)
    (hframes : ∀ f ∈ Frame.object members :: rest, f.Fits) : r.Fits := by
  obtain ⟨hmembers, hrest⟩ := List.forall_mem_cons.1 hframes
  exact fits_place h (.object _ fun m hm => hmembers m (List.mem_reverse.1 hm)) hrest

/-- A reading puts values together that fit, and nothing else. -/
theorem fits_step {r r' : Reading} {l : Lexeme} (h : r.step l = some r') (hr : r.Fits) (hl : l.Fits) :
    r'.Fits := by
  obtain ⟨awaiting, frames⟩ := r
  have hframes : ∀ f ∈ frames, f.Fits := hr.frames
  -- What is awaited, the lexeme and the innermost frame decide together, so the cases are those of the step.
  unfold step at h
  simp only at h
  split at h
  case h_1 v => exact fits_place h (.scalar v hl) hframes
  case h_2 s => exact fits_place h (.text s) hframes
  case h_3 => exact fits_enter h (by simp [Frame.Fits]) trivial hframes
  case h_4 => exact fits_enter h (by simp [Frame.Fits]) trivial hframes
  case h_5 => exact fits_closeArray h hframes
  case h_6 key members rest =>
    cases h
    obtain ⟨hmembers, hrest⟩ := List.forall_mem_cons.1 hframes
    exact ⟨trivial, List.forall_mem_cons.2 ⟨hmembers, hrest⟩⟩
  case h_7 => exact fits_closeObject h hframes
  case h_8 | h_9 | h_10 =>
    cases h
    exact ⟨trivial, hframes⟩
  case h_11 => exact fits_closeArray h hframes
  case h_12 => exact fits_closeObject h hframes
  case h_13 => cases h

end Reading

/-- All numbers of a document fit. -/
theorem Tree.fits_of_parse? {text : String} {t : Tree} (h : parse? text = some t) : t.Fits := by
  unfold parse? at h
  split at h
  case h_2 => cases h
  case h_1 document hread =>
    cases h
    obtain ⟨found, hfound, hfold⟩ := Option.bind_eq_some_iff.1 hread
    have hstart : Reading.Fits ⟨.value false, []⟩ := ⟨trivial, by simp⟩
    have hkept : Reading.Fits ⟨.nothing t, []⟩ :=
      foldlM_keeps Reading.fits_step hfold hstart (fits_of_lexemes? hfound)
    exact hkept.awaiting

end Json

/-! ## Items -/

namespace Item

/-- An item that a document can say: an entry with an argument of the type that the call takes, of one of the
kinds that JSON has a word for, or a blob in hexadecimal. -/
def Parsed : Item → Prop
  | entry .nil => True
  | entry (.bool _) => True
  | entry (.integer v) => -(2 : Int) ^ 63 ≤ v ∧ v < (2 : Int) ^ 63
  | entry (.unsigned n) => n ≤ wordMax
  | entry (.float64 _) => True
  | entry _ => False
  | hexBlob _ => True

theorem parsed_ofNumber {n : Json.Number} (h : n.Fits) : (ofNumber n).Parsed := by
  cases n with
  | float x => trivial
  | integer v =>
    obtain ⟨hlow, hhigh⟩ := h
    simp only [ofNumber]
    split
    case isTrue hle =>
      have hsigned : v < (2 : Int) ^ 63 := by
        unfold int64Max at hle
        omega
      exact ⟨hlow, hsigned⟩
    case isFalse => exact Int.toNat_le.2 hhigh

theorem parsed_of_tree {t : Json.Tree} {item : Item} (h : ofTree? t = some item) (ht : t.Fits) :
    item.Parsed := by
  unfold ofTree? at h
  split at h
  case h_1 | h_2 =>
    cases h
    trivial
  case h_3 n =>
    cases h
    cases ht with
    | scalar v hv => exact parsed_ofNumber hv
  case h_4 members =>
    split at h
    · cases h
      trivial
    · cases h
  case h_5 | h_6 => cases h

theorem mem_of_mapM {α β : Type} {f : α → Option β} {as : List α} {bs : List β}
    (h : as.mapM f = some bs) : ∀ b ∈ bs, ∃ a ∈ as, f a = some b := by
  induction as generalizing bs with
  | nil =>
    cases h
    simp
  | cons a as ih =>
    rw [List.mapM_cons] at h
    obtain ⟨first, hfirst, h⟩ := Option.bind_eq_some_iff.1 h
    obtain ⟨rest, hrest, h⟩ := Option.bind_eq_some_iff.1 h
    cases h
    refine List.forall_mem_cons.2 ⟨⟨a, List.mem_cons_self, hfirst⟩, ?_⟩
    intro b hb
    obtain ⟨a', ha', hf⟩ := ih hrest b hb
    exact ⟨a', List.mem_cons_of_mem _ ha', hf⟩

/-- The items of a document are such as a document can say. -/
theorem parsed_of_parseAll? {text : String} {items : List Item} (h : parseAll? text = some items) :
    ∀ item ∈ items, item.Parsed := by
  unfold parseAll? at h
  split at h
  case h_2 => cases h
  case h_1 elements hparse =>
    cases Json.Tree.fits_of_parse? hparse with
    | array _ helements =>
      intro item hitem
      obtain ⟨t, ht, hitem⟩ := mem_of_mapM h item hitem
      exact parsed_of_tree hitem (helements t ht)

end Item
end MessagePack
