import MessagePack.Proofs.ByteQueue
/-
  Views of blobs: for how long a view shows its payload, and what it shows afterwards.

  A view names positions in the storage. Commits, reservations and reads leave these alone. What moves or
  forgets stored bytes is a growth of the storage, a compaction, or dropping everything, and each of them
  starts a new generation. So a view that is told apart by its generation never shows other bytes, unless
  2 ^ 64 generations pass and the count comes round.

  What is proved:
    1. `generation_after`: the generation counts the displacements, and nothing else.
    2. `keeps_after`: where nothing is displaced, every committed byte stays at its place.
    3. `views_sound`: an issued view shows its payload until the first displacement and is stale from then on;
       no view of any reader ever shows a wrong number of bytes.
-/
namespace MessagePack
namespace Reader

/-! ## Displacements -/

/-- Whether a call moves or forgets stored bytes: everything is dropped, a message is compacted, or the
storage is enlarged. -/
def displaces (r : Reader) (c : Call) : Bool :=
  match c with
  | .discard => true
  | .compact => (r.perform c).outcome.isOk
  | _ => r.arena.capacity < (r.perform c).state.arena.capacity

/-- How many calls of a history move or forget stored bytes. -/
def displacements (r : Reader) : List Call → Nat
  | [] => 0
  | c :: history => (r.displaces c).toNat + (r.perform c).state.displacements history

/-- What a call does to places in the storage: all stay in the same generation, or a new one begins. -/
inductive Places (a a' : Arena) : Bool → Prop where
  | kept (hkeeps : Arena.Keeps a a') (hgeneration : a'.generation = a.generation) : Places a a' false
  | displaced (hgeneration : a'.generation = a.generation + 1) : Places a a' true

theorem places_refl (a : Arena) : Places a a false := .kept (Arena.Keeps.refl a) rfl

/-- More committed bytes displace the others if, and only if, the storage had to grow for them. -/
theorem places_extends {a a' : Arena} {bytes : Bytes} (h : a.Extends bytes a') :
    Places a a' (a.capacity < a'.capacity) := by
  obtain ⟨hcap, hgeneration⟩ | ⟨hcap, hgeneration⟩ := h.grows
  · rw [hcap, decide_eq_false (Nat.lt_irrefl _)]
    exact .kept h.keeps hgeneration
  · rw [decide_eq_true hcap]
    exact .displaced hgeneration

theorem places_same_capacity {a a' : Arena} (h : Arena.Keeps a a') (hcap : a'.capacity = a.capacity)
    (hgeneration : a'.generation = a.generation) : Places a a' (a.capacity < a'.capacity) := by
  rw [hcap, decide_eq_false (Nat.lt_irrefl _)]
  exact .kept h hgeneration

/-- The generation changes with the places, for every call. -/
theorem places_perform {r : Reader} (h : r.arena.WellFormed) (c : Call) :
    Places r.arena (r.perform c).state.arena (r.displaces c) := by
  -- A discard displaces whatever it answers; of the other calls the answer or the capacity tells.
  by_cases hc : c = .discard
  · subst hc
    exact .displaced rfl
  · have hp := performs h c
    unfold displaces
    generalize r.perform c = reply at hp ⊢
    cases hp with
    | refused c f es =>
      cases c with
      | discard => exact absurd rfl hc
      | compact => exact places_refl r.arena
      | _ => exact places_same_capacity (Arena.Keeps.refl r.arena) rfl rfl
    | looked u => exact places_same_capacity (Arena.Keeps.refl r.arena) rfl rfl
    | lacking call hopen hfront => exact places_same_capacity (Arena.Keeps.refl r.arena) rfl rfl
    | took call v n hopen hfront =>
      exact places_same_capacity (Arena.keeps_consume r.arena n) rfl rfl
    | fed bytes a es hextends => exact places_extends hextends
    | reserved n bytes shown a es hextends => exact places_extends hextends
    | committed n a hextends => exact places_extends hextends
    | ended => exact places_same_capacity (Arena.keeps_endMessage r.arena) rfl rfl
    | compacted es hended => exact .displaced (Arena.generation_compacted r.arena)
    | discarded es => exact absurd rfl hc

/-! ## Histories -/

/-- The generation counts the displacements. -/
theorem generation_after {r : Reader} (h : r.arena.WellFormed) (history : List Call) :
    (r.after history).arena.generation
      = r.arena.generation + UInt64.ofNat (r.displacements history) := by
  induction history generalizing r with
  | nil => exact (UInt64.add_zero _).symm
  | cons c history ih =>
    have hrest := ih (wellFormed_perform h c)
    have hplaces := places_perform h c
    show ((r.perform c).state.after history).arena.generation
      = r.arena.generation + UInt64.ofNat ((r.displaces c).toNat + _)
    rw [hrest, UInt64.ofNat_add]
    generalize r.displaces c = d at hplaces ⊢
    cases hplaces with
    | kept hkeeps hgeneration =>
      rw [hgeneration]
      simp
    | displaced hgeneration =>
      rw [hgeneration, UInt64.add_assoc]
      rfl

theorem keeps_after {r : Reader} (h : r.arena.WellFormed) {history : List Call}
    (hnone : r.displacements history = 0) : Arena.Keeps r.arena (r.after history).arena := by
  induction history generalizing r with
  | nil => exact Arena.Keeps.refl r.arena
  | cons c history ih =>
    have hplaces := places_perform h c
    unfold displacements at hnone
    obtain ⟨hfirst, hrest⟩ := Nat.add_eq_zero_iff.1 hnone
    have hlater := ih (wellFormed_perform h c) hrest
    generalize r.displaces c = d at hplaces hfirst
    cases hplaces with
    | kept hkeeps hgeneration => exact hkeeps.trans hlater
    | displaced hgeneration => exact absurd hfirst (by decide)

/-- Fewer than 2 ^ 64 displacements, but some, do not end in the generation they began in. -/
theorem generation_ne {r : Reader} (h : r.arena.WellFormed) {history : List Call}
    (hsome : 0 < r.displacements history) (hfew : r.displacements history < UInt64.size) :
    r.arena.generation ≠ (r.after history).arena.generation := by
  rw [generation_after h]
  intro hsame
  -- The generations agree modulo 2 ^ 64 only if the number of displacements is 0 modulo 2 ^ 64.
  have hnat := congrArg UInt64.toNat hsame
  have hg := r.arena.generation.toNat_lt
  simp only [UInt64.toNat_add, UInt64.toNat_ofNat', UInt64.size] at hnat hfew
  omega

/-! ## Issued views -/

/-- The payload of a blob: what its token has behind the header. -/
def payload (token : Bytes) : Bytes :=
  match token.head?.bind Marker.ofByte? with
  | some m => token.drop m.headerLength
  | none => []

/-- A call to `r` takes a blob with payload `bytes` and answers with the view `v`; `issuer` is the reader then. -/
def Issues (r : Reader) (v : View) (bytes : Bytes) (issuer : Reader) : Prop :=
  ∃ call n, (r.read call).outcome = .ok (.decoded (.bin v) n) ∧ (r.read call).state = issuer ∧
    payload (r.takenBy (.read call)) = bytes

/-- The answer to a view that is not of this generation, or not of this reader. -/
def stale (r : Reader) (v : View) : Except DecodeError Bytes :=
  .error (.staleView v.generation r.arena.generation)

/-- A view is issued for a blob that the scan finds at the cursor. -/
theorem front_of_read {r : Reader} (h : r.arena.WellFormed) {call : ReadCall} {v : View} {n : Nat}
    (hread : (r.read call).outcome = .ok (.decoded (.bin v) n)) :
    ∃ e, r.front = .ok (.complete (.bin e) n) ∧ v = r.viewAt e ∧
      (r.read call).state = r.withArena (r.arena.consume n) := by
  obtain ⟨f, hcase⟩ | ⟨_, hcase⟩ := read_cases h call
  · rw [hcase] at hread
    simp at hread
  · rw [hcase] at hread ⊢
    cases hfront : r.front with
    | error e => simp [hfront, settle, reject] at hread
    | ok scan =>
      cases scan with
      | incomplete => simp [hfront, settle] at hread
      | complete value m =>
        cases value with
        | bin e =>
          simp only [hfront, settle, Reply.outcome_done, Value.map, Except.ok.injEq,
            Progress.decoded.injEq, Value.bin.injEq] at hread
          obtain ⟨hv, hn⟩ := hread
          subst hn
          exact ⟨e, rfl, hv.symm, rfl⟩
        | _ => simp [hfront, settle, Value.map] at hread

theorem takenBy_of_read {r : Reader} {call : ReadCall} {v : Value View} {n : Nat}
    (hread : (r.read call).outcome = .ok (.decoded v n)) :
    r.takenBy (.read call) = r.arena.slice r.cursor (r.cursor + n) := by
  have houtcome : (r.perform (.read call)).outcome = .ok (.progress (.decoded v n)) := by
    show (r.read call).outcome.map Answer.progress = _
    rw [hread]
    rfl
  rw [takenBy, houtcome]

/-- The payload of the token that is taken is the blob that the scan found. -/
theorem payload_takenBy {r : Reader} (h : r.arena.WellFormed) {call : ReadCall} {v : View} {n : Nat}
    (hread : (r.read call).outcome = .ok (.decoded (.bin v) n)) {e : Extent}
    (hfront : r.front = .ok (.complete (.bin e) n)) :
    payload (r.takenBy (.read call)) = e.within r.arena.unread := by
  obtain ⟨b, rest, m, hu, hm, hoffset, hlength⟩ := scanBytes_extent hfront
  obtain ⟨hpos, hthere⟩ := le_remaining_of_front h hfront
  have htoken : r.takenBy (.read call) = r.arena.unread.take n := by
    rw [takenBy_of_read hread]
    have hslice : r.arena.slice (r.arena.readCursor + 0) (r.arena.readCursor + 0 + n)
        = (r.arena.unread.drop 0).take n := Arena.slice_unread (by omega)
    exact hslice
  have hhead : (r.arena.unread.take n).head?.bind Marker.ofByte? = some m := by
    rw [hu, List.head?_take, if_neg (by omega)]
    exact hm
  rw [htoken, payload, hhead, Extent.within]
  show (r.arena.unread.take n).drop m.headerLength = _
  rw [← hoffset, List.drop_take]
  congr 1
  omega

/-- What an issued view stands for: a blob that the reader holds, in the generation of the issue. -/
theorem blob_of_issues {r : Reader} (h : r.arena.WellFormed) {v : View} {bytes : Bytes}
    {issuer : Reader} (hissues : r.Issues v bytes issuer) :
    issuer.arena.WellFormed ∧ Arena.Keeps r.arena issuer.arena ∧
      issuer.arena.generation = r.arena.generation ∧
      ∃ e, v = r.viewAt e ∧ bytes = e.within r.arena.unread ∧
        e.offset + e.length ≤ r.arena.remaining := by
  obtain ⟨call, n, hread, hissuer, hbytes⟩ := hissues
  obtain ⟨e, hfront, hv, hstate⟩ := front_of_read h hread
  obtain ⟨hlength, hthere⟩ := extent_le_of_front h hfront
  rw [← hissuer, hstate]
  refine ⟨Arena.wellFormed_consume h hthere, Arena.keeps_consume r.arena n, rfl, e, hv, ?_, ?_⟩
  · rw [← hbytes, payload_takenBy h hread hfront]
  · omega

/-- Without a displacement an issued view still shows the payload. -/
theorem view_of_kept {r : Reader} (h : r.arena.WellFormed) {v : View} {bytes : Bytes}
    {issuer : Reader} (hissues : r.Issues v bytes issuer) {later : List Call}
    (hnone : issuer.displacements later = 0) : (issuer.after later).view v = .ok bytes := by
  obtain ⟨hissuer, hkeeps, hgeneration, e, hv, hbytes, hthere⟩ := blob_of_issues h hissues
  have hsame : (issuer.after later).arena.generation = r.arena.generation := by
    rw [generation_after hissuer, hnone, hgeneration]
    exact UInt64.add_zero _
  rw [hv, hbytes]
  exact view_of_keeps h (hkeeps.trans (keeps_after hissuer hnone)) hsame hthere

/-- After a displacement an issued view is stale. -/
theorem view_of_displaced {r : Reader} (h : r.arena.WellFormed) {v : View} {bytes : Bytes}
    {issuer : Reader} (hissues : r.Issues v bytes issuer) {later : List Call}
    (hsome : 0 < issuer.displacements later) (hfew : issuer.displacements later < UInt64.size) :
    (issuer.after later).view v = (issuer.after later).stale v := by
  obtain ⟨hissuer, _, hgeneration, e, hv, _, _⟩ := blob_of_issues h hissues
  have hne : v.generation ≠ (issuer.after later).arena.generation := by
    rw [hv]
    show r.arena.generation ≠ _
    rw [← hgeneration]
    exact generation_ne hissuer hsome hfew
  exact if_pos hne

/-- A view shows as many bytes as it says, or it is stale, whoever issued it. -/
theorem view_cases {r : Reader} (h : r.arena.WellFormed) (v : View) :
    r.view v = r.stale v ∨ ∃ bytes, r.view v = .ok bytes ∧ bytes.length = v.length := by
  by_cases hgeneration : v.generation = r.arena.generation
  · unfold view
    rw [if_neg (not_not_intro hgeneration)]
    by_cases hbeyond : r.arena.usedEnd < v.offset + v.length
    · have hnone : r.arena.committed? v.offset v.length = none := if_pos hbeyond
      rw [hnone]
      exact .inl rfl
    · have hsome : r.arena.committed? v.offset v.length
          = some (r.arena.slice v.offset (v.offset + v.length)) := if_neg hbeyond
      have hstored := h.usedEnd_le
      rw [hsome]
      refine .inr ⟨_, rfl, ?_⟩
      rw [Arena.length_slice]
      omega
  · exact .inl (if_pos hgeneration)

/-- Views tell the truth. Whatever a reader has been through: a view that it issues shows the payload of its
token, as it was committed, until a growth, a compaction or a drop comes, and is stale after that, as long as
fewer than 2 ^ 64 of them come. And no view at all, not even that of another reader, shows more bytes or fewer
than it says. -/
theorem views_sound {r : Reader} (hreachable : r.Reachable) :
    (∀ v bytes issuer later, r.Issues v bytes issuer → issuer.displacements later < UInt64.size →
      (issuer.displacements later = 0 → (issuer.after later).view v = .ok bytes) ∧
      (0 < issuer.displacements later →
        (issuer.after later).view v = (issuer.after later).stale v)) ∧
    ∀ v, r.view v = r.stale v ∨ ∃ bytes, r.view v = .ok bytes ∧ bytes.length = v.length := by
  have h := hreachable.wellFormed
  refine ⟨?_, view_cases h⟩
  intro v bytes issuer later hissues hfew
  refine ⟨?_, ?_⟩
  · intro hnone
    exact view_of_kept h hissues hnone
  · intro hsome
    exact view_of_displaced h hissues hsome hfew

/-- A reader that holds a blob of two bytes and has room for twelve more. -/
def holdingBlob : Reader := (create { initialCapacity := 16 }).state.after [.feed [0xc4, 2, 7, 8]]

/-- The view of that blob shows it after a feed that fits, and is stale after one that does not. -/
theorem views_sound_holdingBlob :
    holdingBlob.Issues ⟨2, 2, 0⟩ [7, 8] (holdingBlob.read .any).state ∧
    ((holdingBlob.read .any).state.after [.feed [0xc0]]).view ⟨2, 2, 0⟩ = .ok [7, 8] ∧
    ((holdingBlob.read .any).state.after [.reserve 13 []]).view ⟨2, 2, 0⟩ = .error (.staleView 0 1) := by
  have hreachable : holdingBlob.Reachable := ⟨_, _, rfl⟩
  have hissues : holdingBlob.Issues ⟨2, 2, 0⟩ [7, 8] (holdingBlob.read .any).state :=
    ⟨.any, 4, rfl, rfl, rfl⟩
  have hsound := (views_sound hreachable).1 ⟨2, 2, 0⟩ [7, 8] (holdingBlob.read .any).state
  refine ⟨hissues, ?_, ?_⟩
  · exact (hsound [.feed [0xc0]] hissues (by decide)).1 (by decide)
  · exact (hsound [.reserve 13 []] hissues (by decide)).2 (by decide)

end Reader
end MessagePack
