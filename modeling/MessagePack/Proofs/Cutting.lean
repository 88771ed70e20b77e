import MessagePack.Transcript
/-
  Cuts of a byte string, at any positions: out of order, repeated, at the front or behind the end. A cut falls on
  the furthest one before it, or on the end of the string, so it never reaches back into a piece that is there.

  Decoding in pieces of one length cuts at the multiples of the length; a transcript takes piece after piece from
  the front. The two are the same pieces.

  What is proved:
    1. `Cutting.Of.over`: what is cut off and what is left are the string, cut at the furthest position.
    2. `splitFrom?_eq`: no position and no stretch of a split is out of range.
    3. `max?_boundary`: where the pieces of a split end.
    4. `split_evenCuts`, `evenPieces_chunksOf`: the pieces of one length.
    5. `cutting_lossless`: all this for every string, every list of cuts and every length.
-/
namespace MessagePack

/-! ## Checked splits -/

namespace Checked

/-- A position moved into a range, unless the range ends before it begins. -/
def clamp (position first last : Nat) : Option Nat :=
  if first ≤ last then some (max first (min position last)) else none

/-- The bytes of a string from `first` up to `last`, unless there is no such stretch. -/
def stretch (bytes : Bytes) (first last : Nat) : Option Bytes :=
  if first ≤ last ∧ last ≤ bytes.length then some ((bytes.drop first).take (last - first)) else none

end Checked

/-- The pieces of a string from `start` on, as stretches of it; each cut is first moved into range. -/
def splitFrom? (bytes : Bytes) (start : Nat) : List Nat → Option (List Bytes)
  | [] => do
    let piece ← Checked.stretch bytes start bytes.length
    some [piece]
  | cut :: cuts => do
    let stop ← Checked.clamp cut start bytes.length
    let piece ← Checked.stretch bytes start stop
    let pieces ← splitFrom? bytes stop cuts
    some (piece :: pieces)

/-! ## One cut and any number of them -/

namespace Cutting

/-- A cutting of `bytes`: in front of the position are the pieces, behind it is the rest. -/
structure Of (bytes : Bytes) (c : Cutting) : Prop where
  rest_eq : c.rest = bytes.drop c.position
  flatten_eq : c.pieces.reverse.flatten = bytes.take c.position

variable {bytes : Bytes} {c : Cutting}

theorem position_cut (c : Cutting) (position : Nat) :
    (c.cut position).position = c.position + (position - c.position) := by
  show max c.position position = _
  omega

theorem Of.cut (h : c.Of bytes) (position : Nat) : (c.cut position).Of bytes := by
  refine ⟨?_, ?_⟩
  · rw [position_cut, ← List.drop_drop, ← h.rest_eq]
    rfl
  · rw [position_cut, List.take_add, ← h.rest_eq, ← h.flatten_eq]
    simp [Cutting.cut]

theorem Of.over (h : c.Of bytes) (cuts : List Nat) : (cuts.foldl Cutting.cut c).Of bytes := by
  induction cuts generalizing c with
  | nil => exact h
  | cons position cuts ih => exact ih (h.cut position)

theorem position_foldl_cut (cuts : List Nat) (c : Cutting) :
    (cuts.foldl cut c).position = cuts.foldl max c.position := by
  induction cuts generalizing c with
  | nil => rfl
  | cons position cuts ih => exact ih (c.cut position)

/-- Each cut adds one piece and leaves those before alone. -/
theorem pieces_foldl_cut (cuts : List Nat) (c : Cutting) :
    ∃ later, (cuts.foldl cut c).pieces = later ++ c.pieces ∧ later.length = cuts.length := by
  induction cuts generalizing c with
  | nil => exact ⟨[], rfl, rfl⟩
  | cons position cuts ih =>
    obtain ⟨later, hpieces, hlength⟩ := ih (c.cut position)
    refine ⟨later ++ [c.rest.take (position - c.position)], ?_, ?_⟩
    · rw [List.foldl_cons, hpieces]
      simp [cut]
    · simp [hlength]

/-- All the pieces of a cutting, with what is left as the last one. -/
def all (c : Cutting) : List Bytes := (c.rest :: c.pieces).reverse

end Cutting

theorem cutting_of_start (bytes : Bytes) : Cutting.Of bytes ⟨0, bytes, []⟩ := ⟨rfl, rfl⟩

theorem split_eq_all (bytes : Bytes) (cuts : List Nat) :
    split bytes cuts = (cuts.foldl Cutting.cut ⟨0, bytes, []⟩).all := rfl

/-! ## No cut is out of range -/

theorem drop_min_length (bytes : Bytes) (position : Nat) :
    bytes.drop (min position bytes.length) = bytes.drop position := by
  rcases Nat.le_total position bytes.length with hle | hle
  · rw [Nat.min_eq_left hle]
  · rw [Nat.min_eq_right hle, List.drop_length, List.drop_of_length_le hle]

/-- A cut that is moved into range falls where the unchecked one does, or on the end of the string. -/
theorem clamp_eq (bytes : Bytes) (position cut : Nat) :
    Checked.clamp cut (min position bytes.length) bytes.length
      = some (min (max position cut) bytes.length) := by
  have hstart : min position bytes.length ≤ bytes.length := Nat.min_le_right _ _
  have hstop : max (min position bytes.length) (min cut bytes.length)
      = min (max position cut) bytes.length := by omega
  rw [Checked.clamp, if_pos hstart, hstop]

theorem stretch_eq (bytes : Bytes) (position cut : Nat) :
    Checked.stretch bytes (min position bytes.length) (min (max position cut) bytes.length)
      = some ((bytes.drop position).take (cut - position)) := by
  have hrange : min position bytes.length ≤ min (max position cut) bytes.length ∧
      min (max position cut) bytes.length ≤ bytes.length := by omega
  have hsame : (bytes.drop position).take (min (max position cut) bytes.length - min position bytes.length)
      = (bytes.drop position).take (cut - position) := by
    rw [List.take_eq_take_iff, List.length_drop]
    omega
  rw [Checked.stretch, if_pos hrange, drop_min_length, hsame]

/-- The checked split finds no position and no stretch out of range, and its pieces are those of the cutting. -/
theorem splitFrom?_eq {bytes : Bytes} {c : Cutting} (h : c.Of bytes) (cuts : List Nat) :
    ∃ pieces, splitFrom? bytes (min c.position bytes.length) cuts = some pieces ∧
      (cuts.foldl Cutting.cut c).all = c.pieces.reverse ++ pieces := by
  induction cuts generalizing c with
  | nil =>
    refine ⟨[c.rest], ?_, List.reverse_cons⟩
    have hrange : min c.position bytes.length ≤ bytes.length ∧ bytes.length ≤ bytes.length := by omega
    have hall : (bytes.drop c.position).take (bytes.length - min c.position bytes.length)
        = bytes.drop c.position := by
      apply List.take_of_length_le
      rw [List.length_drop]
      omega
    rw [splitFrom?, Checked.stretch, if_pos hrange, drop_min_length, hall, h.rest_eq]
    rfl
  | cons cut cuts ih =>
    obtain ⟨pieces, hpieces, hall⟩ := ih (h.cut cut)
    refine ⟨c.rest.take (cut - c.position) :: pieces, ?_, ?_⟩
    · have hrest : splitFrom? bytes (min (max c.position cut) bytes.length) cuts = some pieces := hpieces
      rw [splitFrom?, clamp_eq]
      simp only [Option.bind_eq_bind, Option.bind_some, stretch_eq, hrest, h.rest_eq]
    · rw [List.foldl_cons, hall]
      simp [Cutting.cut]

/-! ## Where the pieces end -/

theorem length_split (bytes : Bytes) (cuts : List Nat) : (split bytes cuts).length = cuts.length + 1 := by
  obtain ⟨later, hpieces, hlength⟩ := Cutting.pieces_foldl_cut cuts ⟨0, bytes, []⟩
  rw [split_eq_all, Cutting.all, hpieces]
  simp [hlength]

/-- The first pieces of a split are those of its first cuts. -/
theorem take_split (bytes : Bytes) {cuts : List Nat} {n : Nat} (hn : n ≤ cuts.length) :
    (split bytes cuts).take n = ((cuts.take n).foldl Cutting.cut ⟨0, bytes, []⟩).pieces.reverse := by
  have hfirst : cuts.foldl Cutting.cut ⟨0, bytes, []⟩
      = (cuts.drop n).foldl Cutting.cut ((cuts.take n).foldl Cutting.cut ⟨0, bytes, []⟩) := by
    rw [← List.foldl_append, List.take_append_drop]
  obtain ⟨first, hfront, hlength⟩ := Cutting.pieces_foldl_cut (cuts.take n) ⟨0, bytes, []⟩
  rw [List.append_nil] at hfront
  rw [List.length_take_of_le hn] at hlength
  generalize (cuts.take n).foldl Cutting.cut ⟨0, bytes, []⟩ = c at hfirst hfront ⊢
  obtain ⟨later, hpieces, _⟩ := Cutting.pieces_foldl_cut (cuts.drop n) c
  have hcount : c.pieces.reverse.length = n := by rw [hfront, List.length_reverse, hlength]
  rw [split_eq_all, hfirst, Cutting.all, hpieces, ← List.cons_append, List.reverse_append,
    List.take_left' hcount]

/-- How many bytes the first `n` pieces of a split have. -/
def boundary (bytes : Bytes) (cuts : List Nat) (n : Nat) : Nat := ((split bytes cuts).take n).flatten.length

theorem boundary_eq (bytes : Bytes) {cuts : List Nat} {n : Nat} (hn : n ≤ cuts.length) :
    boundary bytes cuts n = min ((cuts.take n).foldl max 0) bytes.length := by
  have hc := (cutting_of_start bytes).over (cuts.take n)
  rw [boundary, take_split bytes hn, hc.flatten_eq, List.length_take, Cutting.position_foldl_cut]

theorem foldl_max_min (cuts : List Nat) (first most : Nat) :
    (cuts.map (min · most)).foldl max (min first most) = min (cuts.foldl max first) most := by
  induction cuts generalizing first with
  | nil => rfl
  | cons cut cuts ih =>
    have hmax : max (min first most) (min cut most) = min (max first cut) most := by omega
    rw [List.map_cons, List.foldl_cons, hmax, ih]
    rfl

/-- Behind any number of cuts is the furthest of them, each counted to the end of the string at most. -/
theorem max?_boundary (bytes : Bytes) {cuts : List Nat} {i : Nat} (hi : i < cuts.length) :
    ((cuts.take (i + 1)).map (min · bytes.length)).max? = some (boundary bytes cuts (i + 1)) := by
  rw [boundary_eq bytes (Nat.succ_le_of_lt hi)]
  cases cuts with
  | nil => cases hi
  | cons cut cuts =>
    rw [List.take_succ_cons, List.map_cons, List.max?_cons', foldl_max_min, List.foldl_cons, Nat.zero_max]

/-! ## Pieces of one length -/

/-- The cuts for pieces of one length are its multiples inside the string. -/
theorem mem_evenCuts_iff {n : Nat} (n_pos : 0 < n) {total cut : Nat} :
    cut ∈ evenCuts n total ↔ 0 < cut ∧ cut < total ∧ n ∣ cut := by
  rw [evenCuts, List.mem_range']
  refine ⟨?_, ?_⟩
  · rintro ⟨i, hi, rfl⟩
    have hle : (i + 1) * n ≤ total - 1 := (Nat.le_div_iff_mul_le n_pos).1 hi
    rw [Nat.add_mul, Nat.one_mul, Nat.mul_comm] at hle
    exact ⟨by omega, by omega, Nat.dvd_add (Nat.dvd_refl n) (Nat.dvd_mul_right n i)⟩
  · rintro ⟨hpos, hless, k, rfl⟩
    cases k with
    | zero => exact absurd hpos (Nat.lt_irrefl 0)
    | succ i =>
      have hle : (i + 1) * n ≤ total - 1 := by
        rw [Nat.mul_comm]
        exact Nat.le_sub_one_of_lt hless
      exact ⟨i, (Nat.le_div_iff_mul_le n_pos).2 hle, by rw [Nat.mul_succ, Nat.add_comm]⟩

/-- The pieces of a string that have `n` bytes each, but for the last one, which may have fewer and is not empty. -/
structure EvenPieces (n : Nat) (bytes : Bytes) (pieces : List Bytes) : Prop where
  flatten_eq : pieces.flatten = bytes
  full : ∀ piece ∈ pieces.dropLast, piece.length = n
  last : ∃ piece, pieces.getLast? = some piece ∧ 0 < piece.length ∧ piece.length ≤ n

theorem EvenPieces.single {n : Nat} {bytes : Bytes} (h : bytes ≠ []) (hle : bytes.length ≤ n) :
    EvenPieces n bytes [bytes] :=
  ⟨List.flatten_singleton, fun _ h => absurd h List.not_mem_nil, bytes, rfl, List.length_pos_iff.2 h, hle⟩

theorem EvenPieces.cons {n : Nat} {piece bytes : Bytes} {pieces : List Bytes} (hpiece : piece.length = n)
    (h : EvenPieces n bytes pieces) : EvenPieces n (piece ++ bytes) (piece :: pieces) := by
  obtain ⟨last, hlast, hpos, hle⟩ := h.last
  have hsome : pieces ≠ [] := by
    rintro rfl
    cases hlast
  refine ⟨?_, ?_, last, ?_, hpos, hle⟩
  · rw [List.flatten_cons, h.flatten_eq]
  · rw [List.dropLast_cons_of_ne_nil hsome]
    exact List.forall_mem_cons.2 ⟨hpiece, h.full⟩
  · rw [List.getLast?_cons, hlast]
    rfl

theorem evenPieces_chunksOf {n : Nat} (n_pos : 0 < n) {bytes : Bytes} (h : bytes ≠ []) :
    EvenPieces n bytes (chunksOf n n_pos bytes) := by
  induction hlength : bytes.length using Nat.strongRecOn generalizing bytes with
  | ind length ih =>
    have hpos := List.length_pos_iff.2 h
    rw [chunksOf_eq n_pos h]
    rcases Nat.lt_or_ge n bytes.length with hlt | hle
    · have hrest : (bytes.drop n).length = bytes.length - n := List.length_drop
      have hsome : bytes.drop n ≠ [] := List.length_pos_iff.1 (by omega)
      have hpieces := (ih _ (by omega) hsome rfl).cons (List.length_take_of_le (Nat.le_of_lt hlt))
      rwa [List.take_append_drop] at hpieces
    · rw [List.take_of_length_le hle, List.drop_of_length_le hle, chunksOf_nil]
      exact .single h hle

/-- There is no other way to cut a string so. -/
theorem EvenPieces.eq_chunksOf {n : Nat} (n_pos : 0 < n) {bytes : Bytes} {pieces : List Bytes}
    (h : EvenPieces n bytes pieces) : pieces = chunksOf n n_pos bytes := by
  induction pieces generalizing bytes with
  | nil =>
    obtain ⟨last, hlast, _⟩ := h.last
    cases hlast
  | cons piece pieces ih =>
    obtain ⟨last, hlast, hpos, hle⟩ := h.last
    have hbytes : piece ++ pieces.flatten = bytes := h.flatten_eq
    cases pieces with
    | nil =>
      obtain rfl : piece = last := Option.some.inj hlast
      rw [List.flatten_nil, List.append_nil] at hbytes
      rw [← hbytes, chunksOf_eq n_pos (List.length_pos_iff.1 hpos), List.take_of_length_le hle,
        List.drop_of_length_le hle, chunksOf_nil]
    | cons next pieces =>
      have hfull := h.full
      rw [List.dropLast_cons_of_ne_nil (List.cons_ne_nil next pieces)] at hfull
      obtain ⟨hpiece, hrest⟩ := List.forall_mem_cons.1 hfull
      have hlater : EvenPieces n (next :: pieces).flatten (next :: pieces) := by
        refine ⟨rfl, hrest, last, ?_, hpos, hle⟩
        rw [List.getLast?_cons_cons] at hlast
        exact hlast
      have hsome : bytes ≠ [] := by
        apply List.length_pos_iff.1
        rw [← hbytes, List.length_append]
        omega
      rw [chunksOf_eq n_pos hsome, ← hbytes, List.take_left' hpiece, List.drop_left' hpiece, ← ih hlater]

/-- The piece at an index, where there is one. -/
theorem getElem?_chunksOf {n : Nat} (n_pos : 0 < n) {bytes piece : Bytes} {i : Nat}
    (h : (chunksOf n n_pos bytes)[i]? = some piece) :
    n * i < bytes.length ∧ piece = (bytes.drop (n * i)).take n := by
  induction i generalizing bytes with
  | zero =>
    cases bytes with
    | nil =>
      rw [chunksOf_nil] at h
      cases h
    | cons b bytes =>
      rw [chunksOf_eq n_pos (List.cons_ne_nil b bytes)] at h
      exact ⟨Nat.succ_pos _, (Option.some.inj h).symm⟩
  | succ i ih =>
    have hsome : bytes ≠ [] := by
      rintro rfl
      rw [chunksOf_nil] at h
      cases h
    rw [chunksOf_eq n_pos hsome, List.getElem?_cons_succ] at h
    obtain ⟨hless, hpiece⟩ := ih h
    rw [List.length_drop] at hless
    rw [List.drop_drop, Nat.add_comm, ← Nat.mul_succ] at hpiece
    exact ⟨by rw [Nat.mul_succ]; omega, hpiece⟩

/-- Cutting at the multiples of a length, counted from a position on, takes piece after piece from the rest. -/
theorem all_foldl_evenCuts {n : Nat} (n_pos : 0 < n) {rest : Bytes} (h : rest ≠ []) (position : Nat)
    (pieces : List Bytes) :
    ((List.range' (position + n) ((rest.length - 1) / n) n).foldl Cutting.cut ⟨position, rest, pieces⟩).all
      = pieces.reverse ++ chunksOf n n_pos rest := by
  induction hlength : rest.length using Nat.strongRecOn generalizing rest position pieces with
  | ind length ih =>
    have hpos := List.length_pos_iff.2 h
    rw [chunksOf_eq n_pos h]
    rcases Nat.lt_or_ge n length with hlt | hle
    · have hrest : (rest.drop n).length = length - n := by rw [List.length_drop, hlength]
      have hsome : rest.drop n ≠ [] := List.length_pos_iff.1 (by omega)
      have hcount : (length - 1) / n = (length - n - 1) / n + 1 := by
        have hsplit : length - 1 = length - n - 1 + n := by omega
        rw [hsplit, Nat.add_div_right _ n_pos]
      have hcut : Cutting.cut ⟨position, rest, pieces⟩ (position + n)
          = ⟨position + n, rest.drop n, rest.take n :: pieces⟩ := by
        have hwidth : position + n - position = n := Nat.add_sub_cancel_left ..
        have hmax : max position (position + n) = position + n := Nat.max_eq_right (Nat.le_add_right _ _)
        simp only [Cutting.cut, hwidth, hmax]
      rw [hcount, List.range'_succ, List.foldl_cons, hcut,
        ih _ (by omega) hsome (position + n) (rest.take n :: pieces) hrest, List.reverse_cons,
        List.append_assoc]
      rfl
    · rw [Nat.div_eq_of_lt (by omega), List.take_of_length_le (hlength ▸ hle),
        List.drop_of_length_le (hlength ▸ hle), chunksOf_nil]
      exact List.reverse_cons

theorem split_evenCuts {n : Nat} (n_pos : 0 < n) {bytes : Bytes} (h : bytes ≠ []) :
    split bytes (evenCuts n bytes.length) = chunksOf n n_pos bytes := by
  have hall := all_foldl_evenCuts n_pos h 0 []
  rwa [Nat.zero_add] at hall

/-! ## Nothing is lost -/

/-- What a split at any list of positions is. -/
structure Splits (bytes : Bytes) (cuts : List Nat) : Prop where
  /-- No position and no stretch is out of range. -/
  checked_eq : splitFrom? bytes 0 cuts = some (split bytes cuts)
  length_eq : (split bytes cuts).length = cuts.length + 1
  flatten_eq : (split bytes cuts).flatten = bytes
  /-- A piece ends at the furthest cut up to there, each counted to the end of the string at most. -/
  boundary_eq : ∀ i < cuts.length,
    ((cuts.take (i + 1)).map (min · bytes.length)).max? = some (boundary bytes cuts (i + 1))

theorem splits (bytes : Bytes) (cuts : List Nat) : Splits bytes cuts := by
  obtain ⟨pieces, hpieces, hall⟩ := splitFrom?_eq (cutting_of_start bytes) cuts
  rw [Nat.zero_min] at hpieces
  refine ⟨?_, length_split bytes cuts, flatten_split bytes cuts, ?_⟩
  · rw [hpieces, split_eq_all, hall]
    rfl
  · intro i hi
    exact max?_boundary bytes hi

/-- A length of zero counts as one. -/
theorem pieceLength_pos (length : Nat) : 0 < max length 1 := Nat.le_max_right length 1

/-- The pieces into which a decoding in pieces of one length cuts a string. -/
structure SplitsEvenly (bytes : Bytes) (length : Nat) (pieces : List Bytes) : Prop where
  even : EvenPieces (max length 1) bytes pieces
  unique : ∀ pieces', EvenPieces (max length 1) bytes pieces' → pieces' = pieces
  /-- The cuts are the multiples of the length inside the string. -/
  cuts_iff : ∀ cut, cut ∈ evenCuts (max length 1) bytes.length ↔
    0 < cut ∧ cut < bytes.length ∧ max length 1 ∣ cut
  split_eq : split bytes (evenCuts (max length 1) bytes.length) = pieces
  decoding_eq : Decoding.inChunks bytes length = Decoding.ofPieces pieces
  transcript_eq : Transcript.ofChunks bytes length = Transcript.continueFrom .small pieces []

theorem splitsEvenly {bytes : Bytes} (h : bytes ≠ []) (length : Nat) :
    SplitsEvenly bytes length (chunksOf (max length 1) (pieceLength_pos length) bytes) := by
  have n_pos := pieceLength_pos length
  have hsplit := split_evenCuts n_pos h
  refine ⟨evenPieces_chunksOf n_pos h, fun _ => EvenPieces.eq_chunksOf n_pos, fun _ => mem_evenCuts_iff n_pos,
    hsplit, ?_, rfl⟩
  rw [Decoding.inChunks, Decoding.withCuts, hsplit]

/-- Cutting loses nothing. At whatever positions a string is cut, there is one piece more than cuts, the pieces
make up the string, and none of them is out of range. Pieces of one length come from cuts at its multiples; a
decoding feeds just these pieces, and so does a transcript. -/
theorem cutting_lossless :
    (∀ (bytes : Bytes) (cuts : List Nat), Splits bytes cuts) ∧
    ∀ (bytes : Bytes) (length : Nat), bytes ≠ [] → ∃ pieces, SplitsEvenly bytes length pieces := by
  refine ⟨splits, ?_⟩
  intro bytes length h
  exact ⟨_, splitsEvenly h length⟩

/-- Cuts out of order and behind the end give empty pieces; and a string whose length is a multiple of the length
of its pieces has no shorter piece at its end. -/
theorem cutting_lossless_outOfOrder :
    splitFrom? [1, 2, 3, 4] 0 [3, 1, 9] = some [[1, 2, 3], [], [4], []] ∧
    boundary [1, 2, 3, 4] [3, 1, 9] 2 = 3 ∧
    Decoding.inChunks [1, 2, 3, 4] 2 = Decoding.ofPieces [[1, 2], [3, 4]] ∧
    Transcript.ofChunks [1, 2, 3, 4] 2 = Transcript.continueFrom .small [[1, 2], [3, 4]] [] := by
  obtain ⟨hsplits, hchunks⟩ := cutting_lossless
  have h := hsplits [1, 2, 3, 4] [3, 1, 9]
  obtain ⟨pieces, heven⟩ := hchunks [1, 2, 3, 4] 2 (by decide)
  have hpieces : [[1, 2], [3, 4]] = pieces :=
    heven.unique _ ⟨rfl, by decide, [3, 4], rfl, by decide, by decide⟩
  have hfurthest := h.boundary_eq 1 (by decide)
  refine ⟨h.checked_eq, (Option.some.inj hfurthest).symm, ?_, ?_⟩
  · rw [heven.decoding_eq, hpieces]
  · rw [heven.transcript_eq, hpieces]

end MessagePack
