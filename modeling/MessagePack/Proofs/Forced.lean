import MessagePack.Proofs.Canonical
import MessagePack.Proofs.Recognition
/-
  Forced encodings: entries that name the marker to use. Such an entry is taken exactly where the marker can
  carry the argument, and then its token is the one that the marker announces; otherwise it is refused by name
  and the writer is as it was.

  The marker of a small integer is only asked for its kind: the value inside it, which a hand-built one need not
  even be able to hold, is ignored.

  What is proved:
    1. `integerAs_of_carries`, `integerAs_of_not_carries`: the range of every marker, and nothing else, decides.
    2. `readFamily_of_denotes`: a typed read takes a token of the table, whatever stands behind it.
    3. `forced_exact`: this for every writer, every marker and every argument, with what a reader makes of the
       token.
-/
namespace MessagePack

/-! ## What a marker can carry -/

namespace Marker

/-- The integers that a token with this marker can stand for. -/
def Carries : Marker → Int → Prop
  | fixint _, v => 0 ≤ v ∧ v ≤ 127
  | negFixint _, v => -32 ≤ v ∧ v ≤ -1
  | uint w, v => 0 ≤ v ∧ v ≤ 2 ^ w.bits - 1
  | sint w, v => -2 ^ (w.bits - 1) ≤ v ∧ v ≤ 2 ^ (w.bits - 1) - 1
  | _, _ => False

instance (m : Marker) (v : Int) : Decidable (m.Carries v) := by
  cases m <;> unfold Carries <;> infer_instance

/-- The longest blob that a token with this marker can hold; none if it is not the marker of a blob. -/
def longest? : Marker → Option Nat
  | bin8 => some (2 ^ 8 - 1)
  | bin16 => some (2 ^ 16 - 1)
  | bin32 => some (2 ^ 32 - 1)
  | _ => none

theorem longest?_eq (m : Marker) : m.longest? = m.lengthField.map Width.max := by
  cases m <;> rfl

theorem headerLength_of_lengthField {m : Marker} {w : Width} (h : m.lengthField = some w) :
    m.headerLength = 1 + w.bytes := by
  cases m <;> simp only [lengthField, reduceCtorEq, Option.some.injEq] at h
  all_goals
    subst h
    rfl

end Marker

theorem Width.max_cast (w : Width) : (w.max : Int) = 2 ^ w.bits - 1 := by
  cases w <;> rfl

/-! ## The tokens -/

namespace Encoding

/-- A token whose length and first byte are as the marker announces. -/
structure Announced (m : Marker) (token : Bytes) (payload : Nat) : Prop where
  length_eq : token.length = m.headerLength + payload
  name_eq : (token.head?.bind Marker.ofByte?).map Marker.name = some m.name

private theorem announced_fixint_byte : ∀ n : Fin 128,
    (Marker.ofByte? (Marker.fixint (UInt8.ofNat n)).toByte).map Marker.name = some "fixint" := by
  decide +kernel

private theorem announced_negFixint_byte : ∀ n : Fin 32,
    (Marker.ofByte? (Marker.negFixint (Int8.ofInt (-1 - n))).toByte).map Marker.name
      = some "negfixint" := by
  decide +kernel

theorem announced_fixint {v : Int} (hlow : 0 ≤ v) (hhigh : v ≤ 127) (inside : UInt8) :
    Announced (.fixint inside) [(Marker.fixint (UInt8.ofNat v.toNat)).toByte] 0 :=
  ⟨rfl, announced_fixint_byte ⟨v.toNat, by omega⟩⟩

theorem announced_negFixint {v : Int} (hlow : -32 ≤ v) (hhigh : v ≤ -1) (inside : Int8) :
    Announced (.negFixint inside) [(Marker.negFixint (Int8.ofInt v)).toByte] 0 := by
  have hbyte := announced_negFixint_byte ⟨(-1 - v).toNat, by omega⟩
  have hv : -1 - ((-1 - v).toNat : Int) = v := by omega
  simp only [hv] at hbyte
  exact ⟨rfl, hbyte⟩

theorem announced_unsignedToken (w : Width) (n : Nat) : Announced (.uint w) (unsignedToken w n) 0 :=
  ⟨length_unsignedToken w n, by cases w <;> rfl⟩

theorem announced_signedToken (w : Width) (v : Int) : Announced (.sint w) (signedToken w v) 0 :=
  ⟨length_signedToken w v, by cases w <;> rfl⟩

/-- An integer in the range of the marker is taken. -/
theorem integerAs_of_carries {m : Marker} {v : Int} (h : m.Carries v) :
    ∃ token, integerAs m v = .ok token ∧ Announced m token 0 := by
  cases m with
  | fixint inside => exact ⟨_, if_pos h, announced_fixint h.1 h.2 inside⟩
  | negFixint inside =>
    exact ⟨_, if_pos ⟨h.1, Int.lt_of_le_sub_one h.2⟩, announced_negFixint h.1 h.2 inside⟩
  | uint w =>
    have hrange : 0 ≤ v ∧ v ≤ w.max := ⟨h.1, w.max_cast ▸ h.2⟩
    exact ⟨_, if_pos hrange, announced_unsignedToken w v.toNat⟩
  | sint w =>
    have hholds : w.holdsSigned v = true :=
      Width.holdsSigned_iff.2 ⟨h.1, Int.lt_of_le_sub_one h.2⟩
    exact ⟨_, if_pos hholds, announced_signedToken w v⟩
  | nil | «false» | «true» | float32 | float64 | bin8 | bin16 | bin32 => cases h

/-- Any other integer is refused. -/
theorem integerAs_of_not_carries {m : Marker} {v : Int} (h : ¬ m.Carries v) :
    integerAs m v = .error (.unrepresentable v m) := by
  cases m with
  | fixint _ => exact if_neg h
  | negFixint _ => exact if_neg fun hrange => h ⟨hrange.1, Int.le_sub_one_of_lt hrange.2⟩
  | uint w => exact if_neg fun hrange => h ⟨hrange.1, w.max_cast ▸ hrange.2⟩
  | sint w =>
    refine if_neg fun hholds => h ?_
    obtain ⟨hlow, hhigh⟩ := Width.holdsSigned_iff.1 hholds
    exact ⟨hlow, Int.le_sub_one_of_lt hhigh⟩
  | nil | «false» | «true» | float32 | float64 | bin8 | bin16 | bin32 => rfl

/-- A blob that the length field of the marker can count is taken. -/
theorem blobAs_of_longest {m : Marker} {data : Bytes} {most : Nat} (hm : m.longest? = some most)
    (h : data.length ≤ most) :
    ∃ token, blobAs m data = .ok token ∧ Announced m token data.length := by
  rw [Marker.longest?_eq, Option.map_eq_some_iff] at hm
  obtain ⟨w, hw, rfl⟩ := hm
  obtain ⟨token, htoken, hlength⟩ := blobAs_of_le hw h
  refine ⟨token, htoken, ?_, ?_⟩
  · rw [hlength, Marker.headerLength_of_lengthField hw]
  · simp only [blobAs, hw, h, if_true, Except.ok.injEq] at htoken
    rw [← htoken]
    cases m <;> first | rfl | cases hw

theorem blobAs_of_longer {m : Marker} {data : Bytes} {most : Nat} (hm : m.longest? = some most)
    (h : most < data.length) : blobAs m data = .error (.blobTooLarge data.length) := by
  rw [Marker.longest?_eq, Option.map_eq_some_iff] at hm
  obtain ⟨w, hw, rfl⟩ := hm
  simp only [blobAs, hw, Nat.not_le_of_lt h, if_false]

theorem blobAs_of_other {m : Marker} (hm : m.longest? = none) (data : Bytes) :
    blobAs m data = .error (.unrepresentable data.length m) := by
  rw [Marker.longest?_eq, Option.map_eq_none_iff] at hm
  simp only [blobAs, hm]

end Encoding

/-! ## Reading the tokens -/

namespace Reader

theorem marker?_of_denotes {r : Reader} {token rest : Bytes} {v : Value Bytes}
    (hu : r.arena.unread = token ++ rest) (h : Denotes token v) {m : Marker}
    (hm : r.marker? = some m) : m.family = v.family := by
  obtain ⟨b, _, hb, _⟩ := h.length_eq
  apply h.family_eq
  rwa [marker?, hu, List.head?_append, hb, Option.some_or, ← hb] at hm

/-- A call for the family of a value takes a token that denotes it, and what is taken shows the value. -/
theorem readFamily_of_denotes {r : Reader} (h : r.arena.WellFormed)
    (hopen : r.arena.messageComplete = false) {token rest : Bytes}
    (hu : r.arena.unread = token ++ rest) {v : Value Bytes} (hdenotes : Denotes token v)
    (hv : Acceptable r.config.maxBlobLength v) :
    r.readFamily v.family = .done (.decoded (v.map (r.viewOfPayload token.length)) token.length)
      (r.withArena (r.arena.consume token.length)) ∧
    (r.withArena (r.arena.consume token.length)).resolve (v.map (r.viewOfPayload token.length))
      = .ok v := by
  have hfront : r.front = .ok (.complete (v.map (payloadExtent token.length)) token.length) := by
    rw [front, hu]
    exact scanBytes_of_token hdenotes hv r.cursor rest
  have hread : r.readFamily v.family = r.settle r.front :=
    readFamily_eq h hopen fun m hm => marker?_of_denotes hu hdenotes hm
  have hresolve := resolve_settled h hfront
  rw [hu, hdenotes.within_payload rest, map_viewAt] at hresolve
  refine ⟨?_, hresolve⟩
  rw [hread, hfront]
  simp only [settle, map_viewAt]

/-- A call for an integer refuses a number that no signed field can hold. -/
theorem readFamily_of_overflow {r : Reader} (h : r.arena.WellFormed)
    (hopen : r.arena.messageComplete = false) {token rest : Bytes}
    (hu : r.arena.unread = token ++ rest) {v : Int} (hdenotes : Denotes token (.int v))
    (hv : int64Max < v) :
    r.readFamily .int = r.reject (.uint64Overflow v.toNat r.cursor) := by
  have hstarts : StartsUint64 r.arena.unread v.toNat := hu ▸ hdenotes.startsUint64 hv rest
  have hlarge : int64Max < v.toNat := by omega
  have hread : r.readFamily .int = r.settle r.front :=
    readFamily_eq h hopen fun m hm => marker?_of_denotes hu hdenotes hm
  rw [hread, front_of_stands (.overflow v.toNat hstarts hlarge)]
  rfl

end Reader

/-! ## Forced entries -/

/-- A token that an integer was forced into: it is what the marker announces, and a reader before it takes the
integer and all its bytes, but for a number above the largest signed one, which needs the widest field. -/
structure ForcedInteger (m : Marker) (v : Int) (token : Bytes) : Prop where
  announced : Encoding.Announced m token 0
  read_eq : ∀ r : Reader, r.Reachable → r.arena.messageComplete = false →
    ∀ rest, r.arena.unread = token ++ rest →
    (¬ (m = .uint .w64 ∧ int64Max < v) →
      r.readFamily .int = .done (.decoded (.int v) m.headerLength)
        (r.withArena (r.arena.consume m.headerLength))) ∧
    (m = .uint .w64 ∧ int64Max < v →
      r.readFamily .int = r.reject (.uint64Overflow v.toNat r.cursor))

/-- A token that a blob was forced into: it is what the marker announces, and a reader before it whose limit
allows the blob takes it and all its bytes. -/
structure ForcedBlob (m : Marker) (data token : Bytes) : Prop where
  announced : Encoding.Announced m token data.length
  read_eq : ∀ r : Reader, r.Reachable → r.arena.messageComplete = false →
    Allows r.config.maxBlobLength data.length → ∀ rest, r.arena.unread = token ++ rest →
    ∃ view, r.readFamily .bin = .done (.decoded (.bin view) token.length)
        (r.withArena (r.arena.consume token.length)) ∧
      (r.withArena (r.arena.consume token.length)).view view = .ok data

/-- Only the widest unsigned field carries a number above the largest signed one. -/
theorem Marker.Carries.eq_uint64 {m : Marker} {v : Int} (h : m.Carries v) (hv : int64Max < v) :
    m = .uint .w64 := by
  unfold int64Max at hv
  cases m with
  | fixint _ => simp only [Carries] at h; omega
  | negFixint _ => simp only [Carries] at h; omega
  | uint w => cases w <;> simp only [Carries, Width.bits, Width.bytes] at h <;> first | rfl | omega
  | sint w => cases w <;> simp only [Carries, Width.bits, Width.bytes] at h <;> omega
  | nil | «false» | «true» | float32 | float64 | bin8 | bin16 | bin32 => cases h

theorem forcedInteger_of_carries {m : Marker} {v : Int} (h : m.Carries v) :
    ∃ token, Encoding.integerAs m v = .ok token ∧ ForcedInteger m v token := by
  obtain ⟨token, htoken, hannounced⟩ := Encoding.integerAs_of_carries h
  have hdenotes := Encoding.denotes_integerAs htoken
  refine ⟨token, htoken, hannounced, ?_⟩
  intro r hreachable hopen rest hu
  have hwf := hreachable.wellFormed
  refine ⟨?_, ?_⟩
  · intro hfits
    have hv : v ≤ int64Max := by
      apply Int.not_lt.1
      intro hlarge
      exact hfits ⟨h.eq_uint64 hlarge, hlarge⟩
    have hread := (Reader.readFamily_of_denotes hwf hopen hu hdenotes hv).1
    rw [hannounced.length_eq] at hread
    exact hread
  · intro hlarge
    exact Reader.readFamily_of_overflow hwf hopen hu hdenotes hlarge.2

theorem forcedBlob_of_longest {m : Marker} {data : Bytes} {most : Nat} (hm : m.longest? = some most)
    (h : data.length ≤ most) :
    ∃ token, Encoding.blobAs m data = .ok token ∧ ForcedBlob m data token := by
  obtain ⟨token, htoken, hannounced⟩ := Encoding.blobAs_of_longest hm h
  have hdenotes := Encoding.denotes_blobAs htoken
  refine ⟨token, htoken, hannounced, ?_⟩
  intro r hreachable hopen hallowed rest hu
  obtain ⟨hread, hresolve⟩ :=
    Reader.readFamily_of_denotes hreachable.wellFormed hopen hu hdenotes hallowed
  refine ⟨r.viewOfPayload token.length data, hread, ?_⟩
  have hview : ((r.withArena (r.arena.consume token.length)).view
      (r.viewOfPayload token.length data)).map Value.bin = .ok (.bin data) := hresolve
  cases hresult : (r.withArena (r.arena.consume token.length)).view
      (r.viewOfPayload token.length data) with
  | error e =>
    rw [hresult] at hview
    cases hview
  | ok bytes =>
    rw [hresult] at hview
    cases hview
    rfl

theorem Writer.put_of_error {w : Writer} {e : Entry} {refusal : EncodeError}
    (h : e.encode = .error refusal) : w.put e = (some refusal, w) := by
  simp only [put, h]

/-- A forced entry is taken exactly where its marker can carry the argument. It then appends one token that a
reader takes for that argument; otherwise it is refused by name, and the writer is as it was. -/
theorem Writer.forced_exact (w : Writer) (m : Marker) :
    (∀ v : Int, ((w.put (.integerAs m v)).1 = none ↔ m.Carries v) ∧
      (m.Carries v → ∃ token, w.put (.integerAs m v) = (none, ⟨w.bytes ++ token⟩) ∧
        ForcedInteger m v token) ∧
      (¬ m.Carries v → w.put (.integerAs m v) = (some (.unrepresentable v m), w))) ∧
    ∀ data : Bytes,
      ((w.put (.blobAs m data)).1 = none ↔ ∃ most, m.longest? = some most ∧ data.length ≤ most) ∧
      (∀ most, m.longest? = some most → data.length ≤ most →
        ∃ token, w.put (.blobAs m data) = (none, ⟨w.bytes ++ token⟩) ∧ ForcedBlob m data token) ∧
      (∀ most, m.longest? = some most → most < data.length →
        w.put (.blobAs m data) = (some (.blobTooLarge data.length), w)) ∧
      (m.longest? = none →
        w.put (.blobAs m data) = (some (.unrepresentable data.length m), w)) := by
  refine ⟨?integers, ?blobs⟩
  case integers =>
    intro v
    have htaken : m.Carries v → ∃ token, w.put (.integerAs m v) = (none, ⟨w.bytes ++ token⟩) ∧
        ForcedInteger m v token := by
      intro h
      obtain ⟨token, htoken, hforced⟩ := forcedInteger_of_carries h
      exact ⟨token, w.put_of_encode htoken, hforced⟩
    have hrefused (h : ¬ m.Carries v) :
        w.put (.integerAs m v) = (some (.unrepresentable v m), w) :=
      put_of_error (Encoding.integerAs_of_not_carries h)
    refine ⟨⟨?_, ?_⟩, htaken, hrefused⟩
    · intro hnone
      by_cases h : m.Carries v
      · exact h
      · rw [hrefused h] at hnone
        cases hnone
    · intro h
      obtain ⟨token, hput, _⟩ := htaken h
      rw [hput]
  case blobs =>
    intro data
    have htaken : ∀ most, m.longest? = some most → data.length ≤ most →
        ∃ token, w.put (.blobAs m data) = (none, ⟨w.bytes ++ token⟩) ∧ ForcedBlob m data token := by
      intro most hm h
      obtain ⟨token, htoken, hforced⟩ := forcedBlob_of_longest hm h
      exact ⟨token, w.put_of_encode htoken, hforced⟩
    have hlonger : ∀ most, m.longest? = some most → most < data.length →
        w.put (.blobAs m data) = (some (.blobTooLarge data.length), w) := by
      intro most hm h
      exact put_of_error (Encoding.blobAs_of_longer hm h)
    have hother (hm : m.longest? = none) :
        w.put (.blobAs m data) = (some (.unrepresentable data.length m), w) :=
      put_of_error (Encoding.blobAs_of_other hm data)
    refine ⟨⟨?_, ?_⟩, htaken, hlonger, hother⟩
    · intro hnone
      cases hm : m.longest? with
      | none =>
        rw [hother hm] at hnone
        cases hnone
      | some most =>
        refine ⟨most, rfl, Nat.le_of_not_lt ?_⟩
        intro h
        rw [hlonger most hm h] at hnone
        cases hnone
    · rintro ⟨most, hm, h⟩
      obtain ⟨token, hput, _⟩ := htaken most hm h
      rw [hput]

/-- A writer that has written a nil. -/
def Writer.behindNil : Writer := ⟨[0xc0]⟩

/-- A reader before the token of `2 ^ 63` and a nil. -/
def Reader.beforeWidest : Reader :=
  (create { initialCapacity := 16 }).state.after
    [.feed (Encoding.unsignedToken .w64 0x8000000000000000 ++ [0xc0])]

/-- At the ends of the ranges: the least number of a signed byte is taken and the one below it refused; a
hand-built marker may hold a value that is none; the widest field takes a number that a reader then refuses. -/
theorem Writer.forced_exact_behindNil :
    (behindNil.put (.integerAs (.sint .w8) (-128))).1 = none ∧
    behindNil.put (.integerAs (.sint .w8) (-129))
      = (some (.unrepresentable (-129) (.sint .w8)), behindNil) ∧
    (behindNil.put (.integerAs (.negFixint 100) (-1))).1 = none ∧
    behindNil.put (.integerAs (.uint .w64) 0x8000000000000000)
      = (none, ⟨[0xc0, 0xcf, 0x80, 0, 0, 0, 0, 0, 0, 0]⟩) ∧
    Reader.beforeWidest.readFamily .int
      = Reader.beforeWidest.reject (.uint64Overflow 0x8000000000000000 0) ∧
    behindNil.put (.blobAs (.uint .w8) [7]) = (some (.unrepresentable 1 (.uint .w8)), behindNil) := by
  have hbyte := (forced_exact behindNil (.sint .w8)).1
  have hsmall := (forced_exact behindNil (.negFixint 100)).1
  have hwidest := (forced_exact behindNil (.uint .w64)).1
  have hblob := (forced_exact behindNil (.uint .w8)).2
  obtain ⟨token, hput, hforced⟩ := (hwidest 0x8000000000000000).2.1 (by decide)
  have htoken : token = Encoding.unsignedToken .w64 0x8000000000000000 := by
    have hbytes := congrArg (fun reply => reply.2.bytes) hput
    exact (List.append_cancel_left hbytes).symm
  refine ⟨(hbyte (-128)).1.2 (by decide), (hbyte (-129)).2.2 (by decide), (hsmall (-1)).1.2 (by decide),
    ?_, ?_, (hblob [7]).2.2.2 rfl⟩
  · rw [hput, htoken]
    rfl
  · have hread := hforced.read_eq Reader.beforeWidest ⟨_, _, rfl⟩ rfl [0xc0] (htoken ▸ rfl)
    exact hread.2 ⟨rfl, by decide⟩

end MessagePack
