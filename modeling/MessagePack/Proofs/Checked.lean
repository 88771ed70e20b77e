import MessagePack.Proofs.Views
/-
  Checked calls: the calls on an arena and on a reader once more, with a check wherever a sum of sizes, a
  difference of them or a stretch of the storage could be out of range. Sizes end at `wordMax`, so a sum may
  be beyond them; a difference may be below zero; a stretch may begin behind its end or end behind the
  storage. A call whose check fails gives no reply.

  What is proved:
    1. `perform?_eq`: no check of any call fails while the positions of the arena are in order, and the checked
       call does the same as the unchecked one.
    2. `view?_eq`: nor does one when a view is resolved, whoever issued it.
-/
namespace MessagePack

namespace Checked

/-- A sum of sizes, unless it is none. -/
def sum (x y : Nat) : Option Nat := if x + y ≤ wordMax then some (x + y) else none

/-- A difference of sizes, unless it is below zero. -/
def difference (x y : Nat) : Option Nat := if y ≤ x then some (x - y) else none

theorem sum_of_le {x y : Nat} (h : x + y ≤ wordMax) : sum x y = some (x + y) := if_pos h

theorem difference_of_le {x y : Nat} (h : y ≤ x) : difference x y = some (x - y) := if_pos h

end Checked

/-- Goes on with a checked call after success. -/
def Reply.thenChecked {σ α β : Type} (r : Reply σ α) (next : α → σ → Option (Reply σ β)) :
    Option (Reply σ β) :=
  match r.outcome with
  | .error f => some ⟨.error f, r.state, r.events⟩
  | .ok a => (next a r.state).map fun r' => ⟨r'.outcome, r'.state, r.events ++ r'.events⟩

theorem Reply.thenChecked_eq {σ α β : Type} {r : Reply σ α} {next : α → σ → Option (Reply σ β)}
    {unchecked : α → σ → Reply σ β}
    (h : ∀ a, r.outcome = .ok a → next a r.state = some (unchecked a r.state)) :
    r.thenChecked next = some (r.andThen unchecked) := by
  unfold thenChecked andThen
  cases houtcome : r.outcome with
  | error f => rfl
  | ok a => simp only [h a houtcome, Option.map_some]

/-! ## Arenas -/

namespace Arena

/-- The stored bytes from `first` up to `last`, unless there is no such stretch. -/
def slice? (a : Arena) (first last : Nat) : Option Bytes :=
  if first ≤ last ∧ last ≤ a.capacity then some (a.slice first last) else none

def remaining? (a : Arena) : Option Nat := Checked.difference a.usedEnd a.readCursor

def unread? (a : Arena) : Option Bytes := a.slice? a.readCursor a.usedEnd

def region? (a : Arena) : Option Bytes := do
  let stop ← Checked.sum a.usedEnd a.reserved
  a.slice? a.usedEnd stop

def growTo? (a : Arena) (capacity : Nat) : Option (Reply Arena Unit) := do
  let more ← Checked.difference capacity a.capacity
  if a.allocator.provides capacity then
    some ⟨.ok (),
      { a with storage := a.storage ++ zeros more, generation := a.generation + 1 },
      [.grew a.capacity capacity]⟩
  else
    some (.fail (.fault (.allocationFailed capacity)) a)

/-- Hands out the reserved region. -/
def lend? (a : Arena) : Option (Reply Arena Unit) := do
  let _ ← a.region?
  some (.done () a)

/-- Sums beyond `wordMax` and powers of two beyond it are refused here; the rest is checked. -/
def reserve? (a : Arena) (n : Nat) : Option (Reply Arena Unit) :=
  let needed := a.usedEnd + n
  if wordMax < needed then
    some (.fail (.fault (.allocationFailed wordMax)) a)
  else if needed ≤ a.capacity then
    lend? { a with reserved := n }
  else if 0x8000000000000000 < needed then
    some (.fail (.fault (.allocationFailed needed)) a)
  else do
    let grown ← a.growTo? (leastPowerOfTwo needed)
    grown.thenChecked fun _ a' => lend? { a' with reserved := n }

def commit? (a : Arena) (written : Nat) : Option (Reply Arena Unit) :=
  if a.reserved < written then
    some (.fail (.violation (.overcommitted written a.reserved)) a)
  else do
    let usedEnd ← Checked.sum a.usedEnd written
    let reserved ← Checked.difference a.reserved written
    some (.done () { a with usedEnd, reserved })

/-- No more may be consumed than remains. -/
def consume? (a : Arena) (n : Nat) : Option Arena := do
  let remaining ← a.remaining?
  let _ ← Checked.difference remaining n
  let readCursor ← Checked.sum a.readCursor n
  some { a with readCursor }

/-- The unread bytes must be a stretch of the storage, and so must the place they are moved to. -/
def compact? (a : Arena) : Option (Reply Arena Unit) :=
  if a.messageComplete then do
    let leftover ← a.remaining?
    let _ ← a.unread?
    let _ ← a.slice? 0 leftover
    let kept := a.storage.extract a.readCursor a.usedEnd
    some ⟨.ok (),
      { a with
        storage := kept.copySlice 0 a.storage 0 kept.size
        usedEnd := leftover
        readCursor := 0
        reserved := 0
        messageComplete := false
        generation := a.generation + 1 },
      [.compacted a.readCursor leftover]⟩
  else
    some (.fail (.violation .unfinishedMessage) a)

theorem WellFormed.le_wordMax {a : Arena} (h : a.WellFormed) : a.usedEnd + a.reserved ≤ wordMax := by
  have hreserved := h.reserved_le
  have hcap := h.capacity_le_max
  have hword : int64Max ≤ wordMax := by decide
  omega

theorem slice?_eq {a : Arena} {first last : Nat} (h : first ≤ last) (h' : last ≤ a.capacity) :
    a.slice? first last = some (a.slice first last) := if_pos ⟨h, h'⟩

theorem remaining?_eq {a : Arena} (h : a.WellFormed) : a.remaining? = some a.remaining :=
  Checked.difference_of_le h.cursor_le

theorem unread?_eq {a : Arena} (h : a.WellFormed) : a.unread? = some a.unread :=
  slice?_eq h.cursor_le h.usedEnd_le

theorem region?_eq {a : Arena} (h : a.WellFormed) : a.region? = some a.region := by
  unfold region?
  rw [Checked.sum_of_le h.le_wordMax]
  exact slice?_eq (Nat.le_add_right _ _) h.reserved_le

theorem lend?_eq {a : Arena} (h : a.WellFormed) : a.lend? = some (.done () a) := by
  unfold lend?
  rw [region?_eq h]
  rfl

theorem growTo?_eq {a : Arena} {capacity : Nat} (h : a.capacity ≤ capacity) :
    a.growTo? capacity = some (a.growTo capacity) := by
  unfold growTo? growTo
  rw [Checked.difference_of_le h]
  simp only [Option.bind_eq_bind, Option.bind_some]
  split <;> rfl

theorem reserve?_eq {a : Arena} (h : a.WellFormed) (n : Nat) : a.reserve? n = some (a.reserve n) := by
  -- The reserved region that is handed out is in range because the reservation leaves all in order.
  have hwf := wellFormed_reserve h n
  unfold reserve? reserve at *
  simp only at hwf ⊢
  split
  · rfl
  · next hword =>
    rw [if_neg hword] at hwf
    split
    · next hroom =>
      rw [if_pos hroom] at hwf
      exact lend?_eq hwf
    · next hroom =>
      rw [if_neg hroom] at hwf
      split
      · rfl
      · next hhalf =>
        rw [if_neg hhalf] at hwf
        have hle := le_leastPowerOfTwo (a.usedEnd + n)
        rw [growTo?_eq (by omega), Option.bind_eq_bind, Option.bind_some]
        refine Reply.thenChecked_eq ?_
        intro u hgrown
        rw [Reply.outcome_andThen_of_ok hgrown] at hwf
        exact lend?_eq hwf

theorem commit?_eq {a : Arena} (h : a.WellFormed) (n : Nat) : a.commit? n = some (a.commit n) := by
  have hword := h.le_wordMax
  unfold commit? commit
  split
  · rfl
  · rw [Checked.sum_of_le (by omega), Checked.difference_of_le (by omega)]
    rfl

theorem consume?_eq {a : Arena} (h : a.WellFormed) {n : Nat} (hn : n ≤ a.remaining) :
    a.consume? n = some (a.consume n) := by
  have hword := h.le_wordMax
  have hcursor := h.cursor_le
  have hsum : a.readCursor + n ≤ wordMax := by
    unfold remaining at hn
    omega
  unfold consume?
  rw [remaining?_eq h, Checked.sum_of_le hsum]
  simp only [Option.bind_eq_bind, Option.bind_some, Checked.difference_of_le hn]
  rfl

theorem compact?_eq {a : Arena} (h : a.WellFormed) : a.compact? = some a.compact := by
  have hstored := h.usedEnd_le
  have hleftover : a.remaining ≤ a.capacity := by
    unfold remaining
    omega
  unfold compact? compact
  split
  · rw [remaining?_eq h, unread?_eq h]
    simp only [Option.bind_eq_bind, Option.bind_some, slice?_eq (Nat.zero_le _) hleftover]
  · rfl

end Arena

/-! ## Readers -/

namespace Reader

/-- The bytes are copied into the region that was handed out for them, which must have their length. -/
def feed? (r : Reader) (bytes : Bytes) : Option (Reply Reader Unit) := do
  let reserved ← r.arena.reserve? bytes.length
  (reserved.within r.withArena).thenChecked fun _ r' => do
    let region ← r'.arena.region?
    if region.length = bytes.length then
      let committed ← (r'.arena.fill bytes).commit? bytes.length
      some (committed.within r'.withArena)
    else none

def next? (r : Reader) : Option (Reply Reader Upcoming) :=
  if r.arena.messageComplete then some (.done .ended r)
  else do
    match ← r.arena.unread? with
    | [] => some (.done .needMoreData r)
    | b :: _ =>
      match Marker.ofByte? b with
      | some m => some (.done (.token m) r)
      | none => some (r.reject (.unknownTag b r.cursor))

/-- The positions of a blob, counted from the start of the storage. -/
def viewAt? (r : Reader) : Value Extent → Option (Value View)
  | .bin e => do
    let first ← Checked.sum r.cursor e.offset
    let last ← Checked.sum r.cursor (e.offset + e.length)
    let length ← Checked.difference last first
    some (.bin ⟨first, length, r.arena.generation⟩)
  | v => some (v.map r.viewAt)

def settle? (r : Reader) : Except DecodeError (Scan (Value Extent)) →
    Option (Reply Reader (Progress (Value View)))
  | .error e => some (r.reject e)
  | .ok .incomplete => some (.done .needMoreData r)
  | .ok (.complete v n) => do
    let value ← r.viewAt? v
    let arena ← r.arena.consume? n
    some (.done (.decoded value n) (r.withArena arena))

def read? (r : Reader) (call : ReadCall) : Option (Reply Reader (Progress (Value View))) :=
  if r.arena.messageComplete then some (.fail (.violation (.readAfterEnd call)) r)
  else do
    match ← r.arena.unread? with
    | [] => some (.done .needMoreData r)
    | b :: u =>
      match Marker.ofByte? b with
      | none => some (r.reject (.unknownTag b r.cursor))
      | some m =>
        if call = .any ∨ call = .family m.family then
          r.settle? (m.scan r.config.maxBlobLength r.cursor (.ofBytes (b :: u)))
        else some (.fail (.violation (.wrongFamily call m)) r)

/-- A call with all its checks. -/
def perform? (r : Reader) : Call → Option (Reply Reader Answer)
  | .feed bytes => (r.feed? bytes).map (·.mapOutcome fun _ => .done)
  | .reserve n bytes => do
    let reserved ← r.arena.reserve? n
    (reserved.within r.withArena).thenChecked fun _ r' => do
      let region ← r'.arena.region?
      some (.done (.region region) (r'.fill bytes))
  | .commit n =>
    (r.arena.commit? n).map fun reply => (reply.within r.withArena).mapOutcome fun _ => .done
  | .next => r.next?.map (·.mapOutcome .upcoming)
  | .read call => (r.read? call).map (·.mapOutcome .progress)
  | .endMessage => some (.done .done r.endMessage)
  | .compact => r.arena.compact?.map fun reply => (reply.within r.withArena).mapOutcome fun _ => .done
  | .discard => some (r.discard.mapOutcome fun _ => .done)

def view? (r : Reader) (v : View) : Option (Except DecodeError Bytes) :=
  if v.generation ≠ r.arena.generation ∨ r.arena.usedEnd < v.stop then some (r.stale v)
  else (r.arena.slice? v.offset v.stop).map .ok

theorem feed?_eq {r : Reader} (h : r.arena.WellFormed) (bytes : Bytes) :
    r.feed? bytes = some (r.feed bytes) := by
  have hwf := Arena.wellFormed_reserve h bytes.length
  unfold feed?
  rw [Arena.reserve?_eq h, Option.bind_eq_bind, Option.bind_some]
  refine Reply.thenChecked_eq ?_
  intro u hgranted
  have hreserved := (Arena.reserve_granted hgranted).1
  simp only [Reply.state_within, withArena, fill, commit]
  generalize (r.arena.reserve bytes.length).state = a at hwf hreserved ⊢
  have hregion : a.region.length = bytes.length := by
    have hle := hwf.reserved_le
    rw [Arena.region, Arena.length_slice]
    omega
  rw [Arena.region?_eq hwf, Option.bind_eq_bind, Option.bind_some, if_pos hregion,
    Arena.commit?_eq (Arena.wellFormed_fill hwf bytes)]
  rfl

theorem next?_eq {r : Reader} (h : r.arena.WellFormed) : r.next? = some r.next := by
  unfold next?
  cases hended : r.arena.messageComplete with
  | true => simp [next, hended]
  | false =>
    rw [if_neg Bool.false_ne_true, Arena.unread?_eq h, Option.bind_eq_bind, Option.bind_some]
    cases hu : r.arena.unread with
    | nil => rw [next_of_nil hended hu]
    | cons b u =>
      rw [next_of_cons hended hu]
      cases hm : Marker.ofByte? b <;> simp only [hm]

theorem viewAt?_eq {r : Reader} (h : r.arena.WellFormed) {v : Value Extent} {n : Nat}
    (hfront : r.front = .ok (.complete v n)) : r.viewAt? v = some (v.map r.viewAt) := by
  cases v with
  | nil | bool _ | int _ | float _ => rfl
  | bin e =>
    obtain ⟨hlength, hthere⟩ := extent_le_of_front h hfront
    have hword := h.le_wordMax
    have hcursor := h.cursor_le
    have hlast : r.cursor + (e.offset + e.length) ≤ wordMax := by
      show r.arena.readCursor + _ ≤ _
      unfold Arena.remaining at hthere
      omega
    have hfirst : r.cursor + e.offset ≤ r.cursor + (e.offset + e.length) := by omega
    have hdifference : r.cursor + (e.offset + e.length) - (r.cursor + e.offset) = e.length := by omega
    simp only [viewAt?, Checked.sum_of_le (Nat.le_trans hfirst hlast), Checked.sum_of_le hlast,
      Option.bind_eq_bind, Option.bind_some, Checked.difference_of_le hfirst, hdifference]
    rfl

theorem settle?_eq {r : Reader} (h : r.arena.WellFormed) : r.settle? r.front = some (r.settle r.front) := by
  cases hfront : r.front with
  | error e => rfl
  | ok scan =>
    cases scan with
    | incomplete => rfl
    | complete v n =>
      have hconsume := Arena.consume?_eq h (le_remaining_of_front h hfront).2
      simp only [settle?, viewAt?_eq h hfront, hconsume, Option.bind_eq_bind, Option.bind_some]
      rfl

theorem read?_eq {r : Reader} (h : r.arena.WellFormed) (call : ReadCall) :
    r.read? call = some (r.read call) := by
  rw [read_eq h call]
  unfold read? misuse?
  cases hended : r.arena.messageComplete with
  | true => rfl
  | false =>
    rw [if_neg Bool.false_ne_true, if_neg Bool.false_ne_true, Arena.unread?_eq h,
      Option.bind_eq_bind, Option.bind_some]
    have hsettle := settle?_eq h
    cases hu : r.arena.unread with
    | nil =>
      rw [front_of_nil hu]
      cases call <;> simp [marker?, hu, settle]
    | cons b u =>
      rw [front_of_cons hu] at hsettle ⊢
      cases hm : Marker.ofByte? b with
      | none => cases call <;> simp [marker?, hu, hm, settle]
      | some m =>
        rw [hm, hu] at hsettle
        simp only at hsettle
        cases call with
        | any => simp [hm, hu, hsettle]
        | family f =>
          by_cases hf : m.family = f
          · subst hf
            simp [marker?, hu, hm, hsettle, Option.filter]
          · have hother : ¬ f = m.family := fun hsame => hf hsame.symm
            simp [marker?, hu, hm, hf, hother, Option.filter]

/-- No check of any call fails, and the checked call does what the unchecked one does. -/
theorem perform?_eq {r : Reader} (h : r.arena.WellFormed) (c : Call) :
    r.perform? c = some (r.perform c) := by
  cases c with
  | feed bytes =>
    rw [perform?, feed?_eq h]
    rfl
  | reserve n bytes =>
    rw [perform?, Arena.reserve?_eq h, Option.bind_eq_bind, Option.bind_some, perform_reserve]
    refine Reply.thenChecked_eq ?_
    intro u hgranted
    have hregion := Arena.region?_eq (Arena.wellFormed_reserve h n)
    simp only [Reply.state_within, withArena, hregion, Option.bind_eq_bind, Option.bind_some]
  | commit n =>
    rw [perform?, Arena.commit?_eq h]
    rfl
  | next =>
    rw [perform?, next?_eq h]
    rfl
  | read call =>
    rw [perform?, read?_eq h]
    rfl
  | endMessage => rfl
  | compact =>
    rw [perform?, Arena.compact?_eq h]
    rfl
  | discard => rfl

/-- Nor does a check fail when a view is resolved, whoever issued it. -/
theorem view?_eq {r : Reader} (h : r.arena.WellFormed) (v : View) : r.view? v = some (r.view v) := by
  have hstored := h.usedEnd_le
  unfold view? view Arena.committed? View.stop
  by_cases hgeneration : v.generation = r.arena.generation
  · by_cases hbeyond : r.arena.usedEnd < v.offset + v.length
    · simp [hgeneration, hbeyond, stale]
    · simp [hgeneration, hbeyond, Arena.slice?_eq (Nat.le_add_right _ _)
        (Nat.le_trans (Nat.le_of_not_lt hbeyond) hstored)]
  · simp [hgeneration, stale]

end Reader
end MessagePack
