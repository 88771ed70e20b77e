import MessagePack.Proofs.Calls
/-
  The buffer as a queue: bytes come out in the order in which they were committed, each of them once, however
  the storage is enlarged, compacted and reserved in between.

  A ledger is kept beside the reader. It knows what has been committed and what the tokens have taken, each
  as one string, and nothing of cursors and storage. Dropping the buffered bytes starts it afresh.

  What is proved:
    1. `unread_perform`: what is unread and what a call commits is what it takes and what is unread then.
    2. `committed_eq_taken_append_unread`: along every history, failed calls included, what was committed is
       what was taken followed by what is unread. So no byte is lost, doubled or moved past another, and none
       is decoded that was not committed.
-/
namespace MessagePack
namespace Reader

/-! ## The ledger -/

/-- What a call commits: the bytes of a feed, or the bytes that stand behind the committed ones when a commit
is made. A call that fails commits nothing. -/
def committedBy (r : Reader) (c : Call) : Bytes :=
  match c, (r.perform c).outcome with
  | .feed bytes, .ok _ => bytes
  | .commit n, .ok _ => r.arena.slice r.arena.usedEnd (r.arena.usedEnd + n)
  | _, _ => []

/-- What a call takes: the bytes of the token it decodes. -/
def takenBy (r : Reader) (c : Call) : Bytes :=
  match (r.perform c).outcome with
  | .ok (.progress (.decoded _ n)) => r.arena.slice r.cursor (r.cursor + n)
  | _ => []

/-- What has been committed, and what the tokens have taken, since the buffered bytes were last dropped. -/
structure Ledger where
  committed : Bytes
  taken : Bytes
  deriving DecidableEq, Repr

/-- The ledger after a call. -/
def Ledger.record (l : Ledger) (r : Reader) : Call → Ledger
  | .discard => ⟨[], []⟩
  | c => ⟨l.committed ++ r.committedBy c, l.taken ++ r.takenBy c⟩

/-- The ledger after a history. -/
def Ledger.over (l : Ledger) (r : Reader) : List Call → Ledger
  | [] => l
  | c :: history => (l.record r c).over (r.perform c).state history

/-- What was committed is what was taken followed by what is unread. -/
def Ledger.Balanced (l : Ledger) (r : Reader) : Prop :=
  l.committed = l.taken ++ r.arena.unread

/-! ## One call -/

theorem Ledger.record_of_ne (l : Ledger) (r : Reader) {c : Call} (hc : c ≠ .discard) :
    l.record r c = ⟨l.committed ++ r.committedBy c, l.taken ++ r.takenBy c⟩ := by
  cases c <;> first | rfl | exact absurd rfl hc

theorem unread_discard (r : Reader) : (r.perform .discard).state.arena.unread = [] :=
  Arena.unread_clear r.arena

/-- The law of a queue, for one call: what goes in comes behind, what goes out comes from the front. -/
theorem unread_perform {r : Reader} (h : r.arena.WellFormed) {c : Call} (hc : c ≠ .discard) :
    r.arena.unread ++ r.committedBy c = r.takenBy c ++ (r.perform c).state.arena.unread := by
  -- Only a feed and a commit put bytes in, and only a read takes some; for the rest nothing may be lost.
  have hp := performs h c
  unfold committedBy takenBy
  generalize r.perform c = reply at hp ⊢
  cases hp with
  | refused c f es => cases c <;> simp
  | looked u => simp
  | lacking call hopen hfront => simp
  | took call v n hopen hfront =>
    have hn := (le_remaining_of_front h hfront).2
    simp only [List.append_nil]
    exact Arena.unread_consume h hn
  | fed bytes a es hextends => exact hextends.unread_eq.symm
  | reserved n bytes shown a es hextends => exact hextends.unread_eq.symm
  | committed n a hextends => exact hextends.unread_eq.symm
  | ended =>
    simp only [List.append_nil]
    rfl
  | compacted es hended =>
    show r.arena.unread ++ [] = r.arena.compacted.unread
    rw [List.append_nil, Arena.unread_compacted h]
  | discarded es => exact absurd rfl hc

/-- A call keeps a balanced ledger balanced. -/
theorem Ledger.Balanced.record {l : Ledger} {r : Reader} (hl : l.Balanced r)
    (h : r.arena.WellFormed) (c : Call) : (l.record r c).Balanced (r.perform c).state := by
  by_cases hc : c = .discard
  · subst hc
    simp only [Ledger.Balanced, Ledger.record, unread_discard, List.append_nil]
  · rw [Ledger.record_of_ne l r hc]
    show l.committed ++ r.committedBy c = (l.taken ++ r.takenBy c) ++ _
    calc l.committed ++ r.committedBy c
        = l.taken ++ (r.arena.unread ++ r.committedBy c) := by
          rw [hl, List.append_assoc]
      _ = l.taken ++ (r.takenBy c ++ (r.perform c).state.arena.unread) := by
          rw [unread_perform h hc]
      _ = (l.taken ++ r.takenBy c) ++ (r.perform c).state.arena.unread := by
          rw [List.append_assoc]

/-! ## Histories -/

theorem Ledger.Balanced.over {l : Ledger} {r : Reader} (hl : l.Balanced r)
    (h : r.arena.WellFormed) (history : List Call) :
    (l.over r history).Balanced (r.after history) := by
  induction history generalizing l r with
  | nil => exact hl
  | cons c history ih => exact ih (hl.record h c) (wellFormed_perform h c)

/-- The ledger of a new reader after a history. -/
def ledger (config : Config) (history : List Call) : Ledger :=
  Ledger.over ⟨[], []⟩ (create config).state history

theorem balanced_ledger (config : Config) (history : List Call) :
    (ledger config history).Balanced ((create config).state.after history) := by
  apply Ledger.Balanced.over
  · simp only [Ledger.Balanced, (fresh_create config).unread_eq, List.append_nil]
  · exact wellFormed_after config []

/-- Whatever happens to a new reader, its unread bytes are what is left of the committed ones when those of
the tokens are taken from their front, and `remaining` is their number. -/
theorem committed_eq_taken_append_unread (config : Config) (history : List Call) :
    (ledger config history).committed
      = (ledger config history).taken ++ ((create config).state.after history).arena.unread ∧
    ((create config).state.after history).arena.remaining
      = ((create config).state.after history).arena.unread.length := by
  refine ⟨balanced_ledger config history, ?_⟩
  exact (Arena.length_unread (wellFormed_after config history)).symm

end Reader
end MessagePack
