import MessagePack.Proofs.Scan
/-
  The tokens of a byte string, without a reader: scan after scan from the front, until one refuses its token
  or lacks bytes. This is what a reader has to find, whatever way the string comes to it.

  What is proved:
    1. `tokenise_of_complete` and its like: what the first scan does to the whole.
    2. `tokenise_append`: a token that is all there is the first one, whatever comes behind it.
    3. `tokenises`: the tokens and the rest make up the string, and the rest does not start with a token.
-/
namespace MessagePack

/-- A value that was read, and how many bytes its token took. -/
structure Reading (α : Type) where
  value : α
  consumed : Nat
  deriving DecidableEq, Repr

/-- How many bytes the tokens of some readings took. -/
def consumedBy {α : Type} : List (Reading α) → Nat
  | [] => 0
  | reading :: readings => reading.consumed + consumedBy readings

/-- What a byte string is made of: its tokens, the bytes behind them, and why the next token is refused; none
if it lacks bytes. -/
structure Tokenisation where
  tokens : List (Reading (Value Bytes))
  rest : Bytes
  refusal : Option DecodeError
  deriving DecidableEq, Repr

/-- The tokenisation with some tokens put in front. -/
def Tokenisation.behind (t : Tokenisation) (tokens : List (Reading (Value Bytes))) : Tokenisation :=
  { t with tokens := tokens ++ t.tokens }

theorem Tokenisation.behind_behind (t : Tokenisation) (first second : List (Reading (Value Bytes))) :
    (t.behind second).behind first = t.behind (first ++ second) := by
  simp only [behind, List.append_assoc]

theorem length_sub_lt_of_scan {limit : Option Nat} {offset : Nat} {u : Bytes} {v : Value Extent}
    {n : Nat} (h : scanBytes limit offset u = .ok (.complete v n)) : u.length - n < u.length := by
  have hbounds := scanBytes_bounds h
  omega

/-- The tokens of a string that starts at `offset`. -/
def tokenise (limit : Option Nat) (offset : Nat) (u : Bytes) : Tokenisation :=
  match h : scanBytes limit offset u with
  | .error e => ⟨[], u, some e⟩
  | .ok .incomplete => ⟨[], u, none⟩
  | .ok (.complete v n) =>
    have := length_sub_lt_of_scan h
    (tokenise limit (offset + n) (u.drop n)).behind [⟨v.map (·.within u), n⟩]
termination_by u.length

/-! ## The first scan -/

theorem tokenise_of_error {limit : Option Nat} {offset : Nat} {u : Bytes} {e : DecodeError}
    (h : scanBytes limit offset u = .error e) : tokenise limit offset u = ⟨[], u, some e⟩ := by
  rw [tokenise]
  split <;> simp_all

theorem tokenise_of_incomplete {limit : Option Nat} {offset : Nat} {u : Bytes}
    (h : scanBytes limit offset u = .ok .incomplete) : tokenise limit offset u = ⟨[], u, none⟩ := by
  rw [tokenise]
  split <;> simp_all

theorem tokenise_nil (limit : Option Nat) (offset : Nat) : tokenise limit offset [] = ⟨[], [], none⟩ :=
  tokenise_of_incomplete rfl

theorem tokenise_of_complete {limit : Option Nat} {offset : Nat} {u : Bytes} {v : Value Extent}
    {n : Nat} (h : scanBytes limit offset u = .ok (.complete v n)) :
    tokenise limit offset u
      = (tokenise limit (offset + n) (u.drop n)).behind [⟨v.map (·.within u), n⟩] := by
  rw [tokenise]
  split <;> simp_all

/-- A token that is all there is the first one, whatever comes behind it. -/
theorem tokenise_append {limit : Option Nat} {offset : Nat} {u : Bytes} {v : Value Extent} {n : Nat}
    (h : scanBytes limit offset u = .ok (.complete v n)) (t : Bytes) :
    tokenise limit offset (u ++ t)
      = (tokenise limit (offset + n) (u.drop n ++ t)).behind [⟨v.map (·.within u), n⟩] := by
  have hmore := scanBytes_append_of_complete h t
  have hn := (scanBytes_bounds h).2
  rw [tokenise_of_complete hmore, map_within_append h t, List.drop_append_of_le_length hn]

/-! ## The whole -/

theorem consumedBy_append {α : Type} (first second : List (Reading α)) :
    consumedBy (first ++ second) = consumedBy first + consumedBy second := by
  induction first with
  | nil => exact (Nat.zero_add _).symm
  | cons reading first ih =>
    show reading.consumed + consumedBy (first ++ second) = _
    rw [ih, ← Nat.add_assoc]
    rfl

theorem consumedBy_single {α : Type} (value : α) (n : Nat) : consumedBy [⟨value, n⟩] = n :=
  Nat.add_zero n

theorem Tokenisation.consumedBy_behind (t : Tokenisation) (tokens : List (Reading (Value Bytes))) :
    consumedBy (t.behind tokens).tokens = consumedBy tokens + consumedBy t.tokens :=
  consumedBy_append tokens t.tokens

/-- What a tokenisation of `u` from `offset` on has to satisfy: nothing is lost, and the last scan is the one
that takes no token. -/
structure Tokenises (limit : Option Nat) (offset : Nat) (u : Bytes) (t : Tokenisation) : Prop where
  consumed_le : consumedBy t.tokens ≤ u.length
  rest_eq : t.rest = u.drop (consumedBy t.tokens)
  last_eq : scanBytes limit (offset + consumedBy t.tokens) t.rest
    = match t.refusal with
      | some e => .error e
      | none => .ok .incomplete

theorem tokenises (limit : Option Nat) (offset : Nat) (u : Bytes) :
    Tokenises limit offset u (tokenise limit offset u) := by
  fun_induction tokenise limit offset u with
  | case1 offset u e h => exact ⟨Nat.zero_le _, rfl, h⟩
  | case2 offset u h => exact ⟨Nat.zero_le _, rfl, h⟩
  | case3 offset u v n h _ ih =>
    -- The law holds behind the first token; its length is added in front.
    obtain ⟨hle, hrest, hlast⟩ := ih
    have hn := (scanBytes_bounds h).2
    generalize tokenise limit (offset + n) (u.drop n) = t at hle hrest hlast ⊢
    have hsum : consumedBy (t.behind [⟨v.map (·.within u), n⟩]).tokens
        = n + consumedBy t.tokens := by
      rw [Tokenisation.consumedBy_behind, consumedBy_single]
    refine ⟨?_, ?_, ?_⟩
    · rw [List.length_drop] at hle
      omega
    · rw [hsum, ← List.drop_drop]
      exact hrest
    · rw [hsum, ← Nat.add_assoc]
      exact hlast

end MessagePack
