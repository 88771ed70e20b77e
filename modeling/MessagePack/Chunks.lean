import MessagePack.BigEndian
/-
  Chunks: a byte string cut into pieces, at given positions or into pieces of one length.

  What is proved:
    1. `flatten_split`: the pieces of a split are the whole string again.
    2. `flatten_chunksOf`: so are the pieces of one length.
    3. `length_chunksOf`: how many these are.
-/
namespace MessagePack

/-- A string that is being cut from left to right. -/
structure Cutting where
  position : Nat
  /-- What lies behind it. -/
  rest : Bytes
  /-- The pieces in front of it, the last one first. -/
  pieces : List Bytes
  deriving DecidableEq, Repr

/-- Cuts at a position. A cut in front of the last one falls on it, and one behind the end falls on the
end. -/
def Cutting.cut (c : Cutting) (position : Nat) : Cutting :=
  { position := max c.position position
    rest := c.rest.drop (position - c.position)
    pieces := c.rest.take (position - c.position) :: c.pieces }

def split (bytes : Bytes) (cuts : List Nat) : List Bytes :=
  let c := cuts.foldl Cutting.cut ⟨0, bytes, []⟩
  (c.rest :: c.pieces).reverse

/-- The cuts that leave pieces of `length` bytes and a shorter or equal last one. -/
def evenCuts (length total : Nat) : List Nat :=
  List.range' length ((total - 1) / length) length

/-- Pieces of `n` bytes, the last one shorter where it has to be. The pieces before come in reverse. -/
def chunksFrom (n : Nat) (n_pos : 0 < n) (before : List Bytes) (bytes : Bytes) : List Bytes :=
  match bytes with
  | [] => before.reverse
  | b :: bs => chunksFrom n n_pos ((b :: bs).take n :: before) ((b :: bs).drop n)
termination_by bytes.length
decreasing_by
  simp only [List.length_drop, List.length_cons]
  omega

/-- Pieces of `n` bytes, the last one shorter where it has to be. There is no piece of nothing. -/
def chunksOf (n : Nat) (n_pos : 0 < n) (bytes : Bytes) : List Bytes := chunksFrom n n_pos [] bytes

theorem flatten_cut (c : Cutting) (position : Nat) :
    (c.cut position).pieces.reverse.flatten ++ (c.cut position).rest
      = c.pieces.reverse.flatten ++ c.rest := by
  simp [Cutting.cut, List.append_assoc, List.take_append_drop]

theorem flatten_foldl_cut (cuts : List Nat) (c : Cutting) :
    (cuts.foldl Cutting.cut c).pieces.reverse.flatten ++ (cuts.foldl Cutting.cut c).rest
      = c.pieces.reverse.flatten ++ c.rest := by
  induction cuts generalizing c with
  | nil => rfl
  | cons position cuts ih => rw [List.foldl_cons, ih, flatten_cut]

theorem flatten_split (bytes : Bytes) (cuts : List Nat) : (split bytes cuts).flatten = bytes := by
  have h := flatten_foldl_cut cuts ⟨0, bytes, []⟩
  simpa [split] using h

theorem flatten_chunksFrom (n : Nat) (n_pos : 0 < n) (before : List Bytes) (bytes : Bytes) :
    (chunksFrom n n_pos before bytes).flatten = before.reverse.flatten ++ bytes := by
  fun_induction chunksFrom n n_pos before bytes with
  | case1 before => simp
  | case2 before b bs ih => simp [ih, List.append_assoc, List.take_append_drop]

theorem flatten_chunksOf (n : Nat) (n_pos : 0 < n) (bytes : Bytes) :
    (chunksOf n n_pos bytes).flatten = bytes := by
  simp [chunksOf, flatten_chunksFrom]

/-- The pieces before a string do not matter for how it is cut. -/
theorem chunksFrom_eq (n : Nat) (n_pos : 0 < n) (before : List Bytes) (bytes : Bytes) :
    chunksFrom n n_pos before bytes = before.reverse ++ chunksOf n n_pos bytes := by
  induction hlength : bytes.length using Nat.strongRecOn generalizing before bytes with
  | ind length ih =>
    cases bytes with
    | nil => simp [chunksOf, chunksFrom]
    | cons b bs =>
      have hless : ((b :: bs).drop n).length < length := by
        rw [List.length_drop, ← hlength, List.length_cons]
        omega
      have hchunk := ih _ hless [(b :: bs).take n] ((b :: bs).drop n) rfl
      have hfrom := ih _ hless ((b :: bs).take n :: before) ((b :: bs).drop n) rfl
      rw [chunksOf, chunksFrom, chunksFrom, hchunk, hfrom]
      simp

theorem chunksOf_nil (n : Nat) (n_pos : 0 < n) : chunksOf n n_pos [] = [] := by
  rw [chunksOf, chunksFrom, List.reverse_nil]

/-- The first piece and those of the rest. -/
theorem chunksOf_eq {n : Nat} (n_pos : 0 < n) {bytes : Bytes} (h : bytes ≠ []) :
    chunksOf n n_pos bytes = bytes.take n :: chunksOf n n_pos (bytes.drop n) := by
  cases bytes with
  | nil => exact absurd rfl h
  | cons b bs =>
    rw [chunksOf, chunksFrom, chunksFrom_eq]
    rfl

/-- As many pieces as there are, the last one counted as a whole one. -/
theorem length_chunksOf (n : Nat) (n_pos : 0 < n) (bytes : Bytes) :
    (chunksOf n n_pos bytes).length = (bytes.length + n - 1) / n := by
  induction hlength : bytes.length using Nat.strongRecOn generalizing bytes with
  | ind length ih =>
    by_cases h : bytes = []
    · subst h hlength
      rw [chunksOf_nil]
      exact (Nat.div_eq_of_lt (by simp only [List.length_nil]; omega)).symm
    · have hpos := List.length_pos_iff.2 h
      have hless : (bytes.drop n).length < length := by
        rw [List.length_drop]
        omega
      have hrest : (length - n + n - 1) / n = (length - 1) / n := by
        rcases Nat.le_total n length with hle | hle
        · rw [Nat.sub_add_cancel hle]
        · rw [Nat.div_eq_of_lt (by omega), Nat.div_eq_of_lt (by omega)]
      have hone : length + n - 1 = length - 1 + n := by omega
      rw [chunksOf_eq n_pos h, List.length_cons, ih _ hless _ rfl, List.length_drop, hlength, hrest, hone,
        Nat.add_div_right _ n_pos]

end MessagePack
