import MessagePack.Token
/-
  Scans of byte strings: what stands at the front of a string, without a reader and without a window. A scan
  that has come to a decision stands by it, whatever bytes come behind.

  What is proved:
    1. `scanBytes_append`: a scan that does not ask for more bytes is not changed by more bytes.
    2. `scanBytes_bounds`, `scanBytes_extent`: a complete token is taken from the bytes that are there, and a
       blob is the part of it behind the header.
    3. `scanBytes_error`: an error names the offset of the token at fault.
    4. `scanBytes_shift`: where a string starts shows in the offsets of the errors only.
-/
namespace MessagePack

/-- The bytes of a place in a string. -/
def Extent.within (e : Extent) (u : Bytes) : Bytes := (u.drop e.offset).take e.length

theorem Extent.within_append {e : Extent} {u : Bytes} (h : e.offset + e.length ≤ u.length)
    (t : Bytes) : e.within (u ++ t) = e.within u := by
  rw [within, within, List.drop_append_of_le_length (by omega),
    List.take_append_of_le_length (by rw [List.length_drop]; omega)]

/-- The scan of the token at the front of a string that starts at `offset`. -/
def scanBytes (limit : Option Nat) (offset : Nat) : Bytes → Except DecodeError (Scan (Value Extent))
  | [] => .ok .incomplete
  | b :: u =>
    match Marker.ofByte? b with
    | none => .error (.unknownTag b offset)
    | some m => m.scan limit offset (.ofBytes (b :: u))

/-! ## More bytes -/

/-- What is there of a string is there when more of it comes. -/
theorem Window.not_count_lt_append {u : Bytes} {n : Nat} (h : n ≤ u.length) (t : Bytes) :
    ¬ (ofBytes (u ++ t)).count < n := by
  have hcount : (ofBytes (u ++ t)).count = u.length + t.length := List.length_append
  omega

theorem Window.not_count_lt {u : Bytes} {n : Nat} (h : n ≤ u.length) :
    ¬ (ofBytes u).count < n := Nat.not_lt_of_le h

/-- A field lies in the first nine bytes. -/
theorem Window.field_ofBytes (u : Bytes) (w : Width) :
    (ofBytes u).field w = ofBigEndian ((u.drop 1).take w.bytes) := by
  have hw := w.bytes_le
  show ofBigEndian (((u.take 9).drop 1).take w.bytes) = _
  rw [List.drop_take, List.take_take, Nat.min_eq_left (by omega)]

theorem Window.field_append {u : Bytes} {w : Width} (h : 1 + w.bytes ≤ u.length) (t : Bytes) :
    (ofBytes (u ++ t)).field w = (ofBytes u).field w := by
  rw [field_ofBytes, field_ofBytes, List.drop_append_of_le_length (by omega),
    List.take_append_of_le_length (by rw [List.length_drop]; omega)]

namespace Marker

theorem scanField_of_lt {α : Type} {w : Width} {win : Window} (h : win.count < 1 + w.bytes)
    (value : Nat → Except DecodeError α) : scanField w win value = .ok .incomplete := if_pos h

theorem scanBlob_of_lt {α : Type} {w : Width} {win : Window} (h : win.count < 1 + w.bytes)
    (limit : Option Nat) (offset : Nat) (value : Extent → α) :
    scanBlob w limit offset win value = .ok .incomplete := if_pos h

theorem scanField_append {α : Type} {w : Width} {value : Nat → Except DecodeError α} {u : Bytes}
    (h : scanField w (.ofBytes u) value ≠ .ok .incomplete) (t : Bytes) :
    scanField w (.ofBytes (u ++ t)) value = scanField w (.ofBytes u) value := by
  by_cases hlt : u.length < 1 + w.bytes
  · exact absurd (scanField_of_lt hlt value) h
  · have hthere : 1 + w.bytes ≤ u.length := by omega
    simp only [scanField, Window.field_append hthere, Window.not_count_lt_append hthere,
      Window.not_count_lt hthere, if_false]

theorem scanBlob_append {α : Type} {w : Width} {limit : Option Nat} {offset : Nat}
    {value : Extent → α} {u : Bytes}
    (h : scanBlob w limit offset (.ofBytes u) value ≠ .ok .incomplete) (t : Bytes) :
    scanBlob w limit offset (.ofBytes (u ++ t)) value
      = scanBlob w limit offset (.ofBytes u) value := by
  by_cases hlt : u.length < 1 + w.bytes
  · exact absurd (scanBlob_of_lt hlt limit offset value) h
  · have hthere : 1 + w.bytes ≤ u.length := by omega
    simp only [scanBlob, Window.field_append hthere, Window.not_count_lt_append hthere,
      Window.not_count_lt hthere, if_false] at h ⊢
    -- The limit decides without the payload; without a refusal the payload is there.
    cases hlimit : limit.filter (· < (Window.ofBytes u).field w) with
    | some most => rfl
    | none =>
      simp only [hlimit] at h ⊢
      by_cases hcut : u.length < 1 + w.bytes + (Window.ofBytes u).field w
      · exact absurd (if_pos hcut) h
      · have hall : 1 + w.bytes + (Window.ofBytes u).field w ≤ u.length := by omega
        rw [if_neg (Window.not_count_lt_append hall t), if_neg (Window.not_count_lt hall)]

/-- A token that is decided stays decided when more bytes come. -/
theorem scan_append {m : Marker} {limit : Option Nat} {offset : Nat} {u : Bytes}
    (h : m.scan limit offset (.ofBytes u) ≠ .ok .incomplete) (t : Bytes) :
    m.scan limit offset (.ofBytes (u ++ t)) = m.scan limit offset (.ofBytes u) := by
  cases m with
  | nil | «false» | «true» | fixint _ | negFixint _ => rfl
  | uint w | sint w | float32 | float64 =>
    rw [scan] at h ⊢
    exact scanField_append h t
  | bin8 | bin16 | bin32 =>
    rw [scan] at h ⊢
    exact scanBlob_append h t

end Marker

theorem scanBytes_append {limit : Option Nat} {offset : Nat} {u : Bytes}
    (h : scanBytes limit offset u ≠ .ok .incomplete) (t : Bytes) :
    scanBytes limit offset (u ++ t) = scanBytes limit offset u := by
  cases u with
  | nil => exact absurd rfl h
  | cons b u =>
    rw [List.cons_append]
    simp only [scanBytes] at h ⊢
    cases hm : Marker.ofByte? b with
    | none => rfl
    | some m =>
      simp only [hm] at h ⊢
      exact Marker.scan_append h t

theorem scanBytes_append_of_error {limit : Option Nat} {offset : Nat} {u : Bytes} {e : DecodeError}
    (h : scanBytes limit offset u = .error e) (t : Bytes) :
    scanBytes limit offset (u ++ t) = .error e := by
  rw [scanBytes_append (by simp [h]), h]

theorem scanBytes_append_of_complete {limit : Option Nat} {offset : Nat} {u : Bytes}
    {v : Value Extent} {n : Nat} (h : scanBytes limit offset u = .ok (.complete v n)) (t : Bytes) :
    scanBytes limit offset (u ++ t) = .ok (.complete v n) := by
  rw [scanBytes_append (by simp [h]), h]

/-! ## Where a token lies -/

namespace Marker

theorem scanField_value {α : Type} {w : Width} {win : Window}
    {value : Nat → Except DecodeError α} {v : α} {n : Nat}
    (h : scanField w win value = .ok (.complete v n)) : ∃ field, value field = .ok v := by
  unfold scanField at h
  split at h
  · simp at h
  · split at h
    · simp at h
    · next hvalue =>
      simp only [Except.ok.injEq, Scan.complete.injEq] at h
      exact ⟨_, h.1 ▸ hvalue⟩

theorem scanBlob_extent {α : Type} {w : Width} {limit : Option Nat} {offset : Nat} {win : Window}
    {value : Extent → α} {v : α} {n : Nat}
    (h : scanBlob w limit offset win value = .ok (.complete v n)) :
    ∃ length, v = value ⟨1 + w.bytes, length⟩ ∧ 1 + w.bytes + length = n := by
  unfold scanBlob at h
  simp only at h
  split at h
  · simp at h
  · split at h
    · simp at h
    · split at h
      · simp at h
      · simp only [Except.ok.injEq, Scan.complete.injEq] at h
        exact ⟨_, h.1.symm, h.2⟩

/-- A blob lies behind the header and ends where its token ends. -/
theorem scan_extent {m : Marker} {limit : Option Nat} {offset : Nat} {win : Window} {e : Extent}
    {n : Nat} (h : m.scan limit offset win = .ok (.complete (.bin e) n)) :
    e.offset = m.headerLength ∧ e.offset + e.length = n := by
  cases m with
  | nil | «false» | «true» | fixint _ | negFixint _ => simp [scan] at h
  | uint w =>
    rw [scan] at h
    obtain ⟨field, hfield⟩ := scanField_value h
    split at hfield <;> simp at hfield
  | sint w | float32 | float64 =>
    rw [scan] at h
    obtain ⟨field, hfield⟩ := scanField_value h
    simp at hfield
  | bin8 | bin16 | bin32 =>
    rw [scan] at h
    obtain ⟨length, hv, hn⟩ := scanBlob_extent h
    simp only [Value.bin.injEq] at hv
    subst hv
    exact ⟨rfl, hn⟩

end Marker

theorem scanBytes_bounds {limit : Option Nat} {offset : Nat} {u : Bytes} {v : Value Extent}
    {n : Nat} (h : scanBytes limit offset u = .ok (.complete v n)) : 0 < n ∧ n ≤ u.length := by
  cases u with
  | nil => simp [scanBytes] at h
  | cons b u =>
    simp only [scanBytes] at h
    split at h
    · simp at h
    · exact Marker.scan_bounds (Nat.succ_pos _) h

theorem scanBytes_extent {limit : Option Nat} {offset : Nat} {u : Bytes} {e : Extent} {n : Nat}
    (h : scanBytes limit offset u = .ok (.complete (.bin e) n)) :
    ∃ b rest m, u = b :: rest ∧ Marker.ofByte? b = some m ∧
      e.offset = m.headerLength ∧ e.offset + e.length = n := by
  cases u with
  | nil => simp [scanBytes] at h
  | cons b u =>
    simp only [scanBytes] at h
    split at h
    · simp at h
    · next m hm => exact ⟨b, u, m, rfl, hm, Marker.scan_extent h⟩

/-- The payload of a complete token is not changed by what comes behind it. -/
theorem map_within_append {limit : Option Nat} {offset : Nat} {u : Bytes} {v : Value Extent} {n : Nat}
    (h : scanBytes limit offset u = .ok (.complete v n)) (t : Bytes) :
    v.map (·.within (u ++ t)) = v.map (·.within u) := by
  have hn := (scanBytes_bounds h).2
  cases v with
  | nil | bool _ | int _ | float _ => rfl
  | bin e =>
    obtain ⟨_, _, _, _, _, _, hlength⟩ := scanBytes_extent h
    exact congrArg Value.bin (Extent.within_append (by omega) t)

/-! ## Where a refused token starts -/

/-- The offset that an error names. -/
def DecodeError.offset? : DecodeError → Option Nat
  | unknownTag _ offset | uint64Overflow _ offset | blobTooLarge _ _ offset => some offset
  | _ => none

theorem DecodeError.offset?_shift (e : DecodeError) (base : Nat) :
    (e.shift base).offset? = e.offset?.map (base + ·) := by
  cases e <;> rfl

namespace Marker

theorem scanField_error {α : Type} {w : Width} {win : Window} {value : Nat → Except DecodeError α}
    {e : DecodeError} (h : scanField w win value = .error e) : ∃ field, value field = .error e := by
  unfold scanField at h
  split at h
  · simp at h
  · split at h
    · next hvalue =>
      simp only [Except.error.injEq] at h
      exact ⟨_, h ▸ hvalue⟩
    · simp at h

theorem scanBlob_error {α : Type} {w : Width} {limit : Option Nat} {offset : Nat} {win : Window}
    {value : Extent → α} {e : DecodeError} (h : scanBlob w limit offset win value = .error e) :
    e.offset? = some offset := by
  unfold scanBlob at h
  simp only at h
  split at h
  · simp at h
  · split at h
    · simp only [Except.error.injEq] at h
      rw [← h]
      rfl
    · split at h <;> simp at h

theorem scan_error {m : Marker} {limit : Option Nat} {offset : Nat} {win : Window} {e : DecodeError}
    (h : m.scan limit offset win = .error e) : e.offset? = some offset := by
  cases m with
  | nil | «false» | «true» | fixint _ | negFixint _ => simp [scan] at h
  | uint w =>
    rw [scan] at h
    obtain ⟨field, hfield⟩ := scanField_error h
    split at hfield
    · simp only [Except.error.injEq] at hfield
      rw [← hfield]
      rfl
    · simp at hfield
  | sint w | float32 | float64 =>
    rw [scan] at h
    obtain ⟨field, hfield⟩ := scanField_error h
    simp at hfield
  | bin8 | bin16 | bin32 =>
    rw [scan] at h
    exact scanBlob_error h

end Marker

/-- An error names the offset at which the refused token starts. -/
theorem scanBytes_error {limit : Option Nat} {offset : Nat} {u : Bytes} {e : DecodeError}
    (h : scanBytes limit offset u = .error e) : e.offset? = some offset := by
  cases u with
  | nil => simp [scanBytes] at h
  | cons b u =>
    simp only [scanBytes] at h
    split at h
    · simp only [Except.error.injEq] at h
      rw [← h]
      rfl
    · exact Marker.scan_error h

/-! ## Where a string starts -/

namespace Marker

theorem scanField_shift {α : Type} {w : Width} {win : Window} {value value' : Nat → Except DecodeError α}
    {base : Nat} (h : ∀ field, value' field = (value field).mapError (.shift base)) :
    scanField w win value' = (scanField w win value).mapError (.shift base) := by
  unfold scanField
  split
  · rfl
  · rw [h]
    cases value (win.field w) <;> rfl

theorem scanBlob_shift {α : Type} (w : Width) (limit : Option Nat) (base offset : Nat)
    (win : Window) (value : Extent → α) :
    scanBlob w limit (base + offset) win value
      = (scanBlob w limit offset win value).mapError (.shift base) := by
  unfold scanBlob
  simp only
  split
  · rfl
  · split
    · rfl
    · split <;> rfl

theorem scan_shift (m : Marker) (limit : Option Nat) (base offset : Nat) (win : Window) :
    m.scan limit (base + offset) win = (m.scan limit offset win).mapError (.shift base) := by
  cases m with
  | nil | «false» | «true» | fixint _ | negFixint _ => rfl
  | uint w =>
    rw [scan, scan]
    refine scanField_shift fun field => ?_
    split <;> rfl
  | sint w | float32 | float64 =>
    rw [scan, scan]
    exact scanField_shift fun _ => rfl
  | bin8 | bin16 | bin32 =>
    rw [scan, scan]
    exact scanBlob_shift _ _ _ _ _ _

end Marker

theorem scanBytes_shift (limit : Option Nat) (base offset : Nat) (u : Bytes) :
    scanBytes limit (base + offset) u = (scanBytes limit offset u).mapError (.shift base) := by
  cases u with
  | nil => rfl
  | cons b u =>
    simp only [scanBytes]
    split
    · rfl
    · exact Marker.scan_shift _ _ _ _ _

end MessagePack
