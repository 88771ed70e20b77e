import MessagePack.Reader.Call
import MessagePack.Proofs.Arena.Storage
import MessagePack.Proofs.Scan
/-
  Reading calls in terms of the unread bytes: every call that takes a token goes by one scan of them, and
  does nothing but move the cursor.

  What is proved:
    1. `readValue_eq`, `readFamily_eq`: a reading call on an open message settles the scan at the cursor.
    2. `read_eq`: any reading call either misuses the reader and changes nothing, or settles that scan.
    3. `resolve_settled`: right after a token is taken its blob resolves to the payload.
-/
namespace MessagePack
namespace Reader

/-- What the unread bytes begin with. -/
def front (r : Reader) : Except DecodeError (Scan (Value Extent)) :=
  scanBytes r.config.maxBlobLength r.cursor r.arena.unread

/-- The reply to a scan of the unread bytes. -/
def settle (r : Reader) :
    Except DecodeError (Scan (Value Extent)) → Reply Reader (Progress (Value View))
  | .error e => r.reject e
  | .ok .incomplete => .done .needMoreData r
  | .ok (.complete v n) => .done (.decoded (v.map r.viewAt) n) (r.withArena (r.arena.consume n))

/-- The marker of the first unread byte. -/
def marker? (r : Reader) : Option Marker := r.arena.unread.head?.bind Marker.ofByte?

/-! ## One scan decides -/

theorem lead_of_nil {a : Arena} (h : a.unread = []) : a.window.lead = [] := by
  have hlead := a.lead_eq_take
  rw [h] at hlead
  exact hlead

theorem lead_of_cons {a : Arena} {b : UInt8} {u : Bytes} (h : a.unread = b :: u) :
    a.window.lead = b :: u.take 8 := by
  have hlead := a.lead_eq_take
  rw [h] at hlead
  exact hlead

theorem take_eq {r : Reader} (h : r.arena.WellFormed) (m : Marker) :
    r.take m = r.settle (m.scan r.config.maxBlobLength r.cursor (.ofBytes r.arena.unread)) := by
  unfold take
  rw [Arena.window_eq h.usedEnd_le]
  generalize m.scan r.config.maxBlobLength r.cursor (.ofBytes r.arena.unread) = scan
  cases scan with
  | error e => rfl
  | ok found => cases found <;> rfl

theorem peek_of_nil {r : Reader} (hopen : r.arena.messageComplete = false)
    (hu : r.arena.unread = []) (call : ReadCall) : r.peek call = .done none r := by
  simp [peek, hopen, lead_of_nil hu]

theorem peek_of_cons {r : Reader} (hopen : r.arena.messageComplete = false) {b : UInt8} {u : Bytes}
    (hu : r.arena.unread = b :: u) (call : ReadCall) :
    r.peek call = match Marker.ofByte? b with
      | some m => .done (some m) r
      | none => r.reject (.unknownTag b r.cursor) := by
  simp only [peek, hopen, lead_of_cons hu]
  cases Marker.ofByte? b <;> rfl

theorem next_of_nil {r : Reader} (hopen : r.arena.messageComplete = false)
    (hu : r.arena.unread = []) : r.next = .done .needMoreData r := by
  simp [next, hopen, lead_of_nil hu]

theorem next_of_cons {r : Reader} (hopen : r.arena.messageComplete = false) {b : UInt8} {u : Bytes}
    (hu : r.arena.unread = b :: u) :
    r.next = match Marker.ofByte? b with
      | some m => .done (.token m) r
      | none => r.reject (.unknownTag b r.cursor) := by
  simp only [next, hopen, lead_of_cons hu]
  cases Marker.ofByte? b <;> rfl

theorem front_of_nil {r : Reader} (hu : r.arena.unread = []) : r.front = .ok .incomplete := by
  rw [front, hu]
  rfl

theorem front_of_cons {r : Reader} {b : UInt8} {u : Bytes} (hu : r.arena.unread = b :: u) :
    r.front = match Marker.ofByte? b with
      | none => .error (.unknownTag b r.cursor)
      | some m => m.scan r.config.maxBlobLength r.cursor (.ofBytes r.arena.unread) := by
  rw [front, hu]
  rfl

/-- A call for the family of the next token takes what the scan finds. -/
theorem readFamily_eq {r : Reader} (h : r.arena.WellFormed)
    (hopen : r.arena.messageComplete = false) {f : Family}
    (hfamily : ∀ m, r.marker? = some m → m.family = f) : r.readFamily f = r.settle r.front := by
  unfold readFamily
  cases hu : r.arena.unread with
  | nil =>
    rw [peek_of_nil hopen hu, front_of_nil hu]
    rfl
  | cons b u =>
    rw [peek_of_cons hopen hu, front_of_cons hu]
    cases hm : Marker.ofByte? b with
    | none => rfl
    | some m =>
      have hf : m.family = f := hfamily m (by simp [marker?, hu, hm])
      simp only [Reply.andThen, Reply.outcome_done, Reply.state_done, Reply.events_done, hf,
        if_true, List.nil_append]
      exact take_eq h m

/-- A call for another family is a misuse, whether or not the token is complete. -/
theorem readFamily_of_other {r : Reader} (hopen : r.arena.messageComplete = false) {f : Family}
    {m : Marker} (hm : r.marker? = some m) (hfamily : m.family ≠ f) :
    r.readFamily f = .fail (.violation (.wrongFamily (.family f) m)) r := by
  unfold readFamily
  cases hu : r.arena.unread with
  | nil => simp [marker?, hu] at hm
  | cons b u =>
    have hb : Marker.ofByte? b = some m := by simpa [marker?, hu] using hm
    rw [peek_of_cons hopen hu, hb]
    simp [Reply.andThen, hfamily, Reply.fail]

theorem readFamily_of_ended {r : Reader} (h : r.arena.messageComplete = true) (f : Family) :
    r.readFamily f = .fail (.violation (.readAfterEnd (.family f))) r := by
  simp [readFamily, peek, h, Reply.andThen, Reply.fail]

/-- A call for whatever comes takes what the scan finds. -/
theorem readValue_eq {r : Reader} (h : r.arena.WellFormed)
    (hopen : r.arena.messageComplete = false) : r.readValue = r.settle r.front := by
  unfold readValue
  cases hu : r.arena.unread with
  | nil =>
    rw [next_of_nil hopen hu, front_of_nil hu]
    rfl
  | cons b u =>
    rw [next_of_cons hopen hu]
    cases hm : Marker.ofByte? b with
    | none =>
      rw [front_of_cons hu, hm]
      rfl
    | some m =>
      -- `next` has seen the marker, so the family that is asked for is its own.
      have hmarker : r.marker? = some m := by simp [marker?, hu, hm]
      have hread := readFamily_eq h hopen (f := m.family) (by simp [hmarker])
      simp only [Reply.andThen, Reply.outcome_done, Reply.state_done, Reply.events_done,
        List.nil_append]
      exact hread

/-- What a read of an open message can find. -/
inductive Finding (r : Reader) : Reply Reader (Progress (Value View)) → Prop where
  | refused (e : DecodeError) (h : r.front = .error e) : Finding r (r.reject e)
  | lacking (h : r.front = .ok .incomplete) : Finding r (.done .needMoreData r)
  | found (v : Value Extent) (n : Nat) (h : r.front = .ok (.complete v n)) :
      Finding r (.done (.decoded (v.map r.viewAt) n) (r.withArena (r.arena.consume n)))

theorem finding {r : Reader} (h : r.arena.WellFormed) (hopen : r.arena.messageComplete = false) :
    Finding r r.readValue := by
  rw [readValue_eq h hopen]
  cases hfront : r.front with
  | error e => exact .refused e hfront
  | ok scan =>
    cases scan with
    | incomplete => exact .lacking hfront
    | complete v n => exact .found v n hfront

theorem readValue_of_ended {r : Reader} (h : r.arena.messageComplete = true) :
    r.readValue = .fail (.violation (.readAfterEnd .any)) r := by
  simp [readValue, next, h, Reply.andThen, Reply.fail]

/-- The misuse that a reading call is, if it is one. -/
def misuse? (r : Reader) (call : ReadCall) : Option Violation :=
  if r.arena.messageComplete then some (.readAfterEnd call)
  else match call with
    | .any => none
    | .family f => (r.marker?.filter (·.family ≠ f)).map (.wrongFamily call)

/-- A reading call misuses the reader, or it settles the scan at the cursor. -/
theorem read_eq {r : Reader} (h : r.arena.WellFormed) (call : ReadCall) :
    r.read call = match r.misuse? call with
      | some v => .fail (.violation v) r
      | none => r.settle r.front := by
  unfold misuse?
  cases hended : r.arena.messageComplete with
  | true =>
    cases call with
    | family f => exact readFamily_of_ended hended f
    | any => exact readValue_of_ended hended
  | false =>
    cases call with
    | any => exact readValue_eq h hended
    | family f =>
      cases hm : r.marker? with
      | none => exact readFamily_eq h hended (by simp [hm])
      | some m =>
        by_cases hf : m.family = f
        · simp only [Option.filter, hf, ne_eq, not_true, decide_false, Bool.false_eq_true, if_false]
          refine readFamily_eq h hended ?_
          intro m' hm'
          rw [hm] at hm'
          injection hm' with hm'
          rwa [← hm']
        · simp only [Option.filter, hf, ne_eq, not_false_eq_true, decide_true, if_true]
          exact readFamily_of_other hended hm hf

/-- What a reading call can do: it misuses the reader, or the message is open and it settles the scan. -/
theorem read_cases {r : Reader} (h : r.arena.WellFormed) (call : ReadCall) :
    (∃ v, r.read call = .fail (.violation v) r) ∨
    (r.arena.messageComplete = false ∧ r.read call = r.settle r.front) := by
  have hread := read_eq h call
  cases hmisuse : r.misuse? call with
  | some v =>
    rw [hmisuse] at hread
    exact .inl ⟨v, hread⟩
  | none =>
    rw [hmisuse] at hread
    cases hended : r.arena.messageComplete with
    | true => simp [misuse?, hended] at hmisuse
    | false => exact .inr ⟨rfl, hread⟩

/-! ## Blobs -/

/-- A view of committed bytes resolves in every arena of that generation that has kept them. -/
theorem view_of_keeps {r r' : Reader} (h : r.arena.WellFormed)
    (hkeeps : Arena.Keeps r.arena r'.arena)
    (hgeneration : r'.arena.generation = r.arena.generation) {e : Extent}
    (hthere : e.offset + e.length ≤ r.arena.remaining) :
    r'.view (r.viewAt e) = .ok (e.within r.arena.unread) := by
  have hend : r.cursor + e.offset + e.length ≤ r.arena.usedEnd := by
    have hcursor := h.cursor_le
    show r.arena.readCursor + e.offset + e.length ≤ r.arena.usedEnd
    unfold Arena.remaining at hthere
    omega
  have hslice : r'.arena.slice (r.cursor + e.offset) (r.cursor + e.offset + e.length)
      = e.within r.arena.unread := by
    rw [hkeeps.slice_eq _ hend]
    exact Arena.slice_unread hthere
  have hcommitted : ¬ r'.arena.usedEnd < r.cursor + e.offset + e.length :=
    Nat.not_lt_of_le (Nat.le_trans hend hkeeps.usedEnd_le)
  simp only [view, viewAt, hgeneration, ne_eq, not_true, if_false, Arena.committed?, hcommitted,
    hslice]

theorem resolve_map {r r' : Reader} {v : Value Extent} {f : Extent → Bytes}
    (h : ∀ e, v = .bin e → r'.view (r.viewAt e) = .ok (f e)) :
    r'.resolve (v.map r.viewAt) = .ok (v.map f) := by
  cases v with
  | nil | bool _ | int _ | float _ => rfl
  | bin e =>
    show (r'.view (r.viewAt e)).map Value.bin = .ok (Value.bin (f e))
    rw [h e rfl]
    rfl

/-- A token that the scan finds is made of unread bytes. -/
theorem le_remaining_of_front {r : Reader} (h : r.arena.WellFormed) {v : Value Extent} {n : Nat}
    (hfront : r.front = .ok (.complete v n)) : 0 < n ∧ n ≤ r.arena.remaining := by
  have hbounds := scanBytes_bounds hfront
  rwa [Arena.length_unread h] at hbounds

/-- A blob lies among the unread bytes that its token was scanned from. -/
theorem extent_le_of_front {r : Reader} (h : r.arena.WellFormed) {e : Extent} {n : Nat}
    (hfront : r.front = .ok (.complete (.bin e) n)) :
    e.offset + e.length = n ∧ n ≤ r.arena.remaining := by
  obtain ⟨_, _, _, _, _, _, hn⟩ := scanBytes_extent hfront
  exact ⟨hn, (le_remaining_of_front h hfront).2⟩

/-- Right after a token was taken, its blob resolves to the payload. -/
theorem resolve_settled {r : Reader} (h : r.arena.WellFormed) {v : Value Extent} {n : Nat}
    (hfront : r.front = .ok (.complete v n)) :
    (r.withArena (r.arena.consume n)).resolve (v.map r.viewAt)
      = .ok (v.map (·.within r.arena.unread)) := by
  apply resolve_map
  intro e hv
  subst hv
  obtain ⟨hlength, hthere⟩ := extent_le_of_front h hfront
  have hkeeps : Arena.Keeps r.arena (r.withArena (r.arena.consume n)).arena :=
    Arena.keeps_consume r.arena n
  exact view_of_keeps h hkeeps rfl (hlength ▸ hthere)

end Reader
end MessagePack
