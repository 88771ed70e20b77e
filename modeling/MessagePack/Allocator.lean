import MessagePack.FormatError
/-
  Allocation. Who grants storage is not for a program to say, so an allocator is a parameter of it. All that is
  known of one is that a size it has is not too much of it to be asked for less.
-/
namespace MessagePack

/-- Grants storage, or refuses it, by the size that is asked for. What grants a size grants the smaller ones. -/
structure Allocator where
  grants : Nat → Bool
  grants_of_le : ∀ {m n : Nat}, m ≤ n → grants n = true → grants m = true

namespace Allocator

/-- Grants just what is below a ceiling. -/
def below (ceiling : Nat) : Allocator where
  grants size := size < ceiling
  grants_of_le hle h := decide_eq_true (Nat.lt_of_le_of_lt hle (of_decide_eq_true h))

/-- The allocator that commands run with. -/
def standard : Allocator := below 0x4000000000000

/-- Whether a storage of this size can be had. None is larger than `int64Max`, whoever grants it. -/
def provides (alloc : Allocator) (size : Nat) : Bool := size ≤ int64Max && alloc.grants size

theorem le_of_provides {alloc : Allocator} {size : Nat} (h : alloc.provides size = true) : size ≤ int64Max :=
  of_decide_eq_true (Bool.and_eq_true_iff.1 h).1

theorem provides_of_le {alloc : Allocator} {m n : Nat} (hle : m ≤ n) (h : alloc.provides n = true) :
    alloc.provides m = true := by
  obtain ⟨hmax, hgrants⟩ := Bool.and_eq_true_iff.1 h
  exact Bool.and_eq_true_iff.2
    ⟨decide_eq_true (Nat.le_trans hle (of_decide_eq_true hmax)), alloc.grants_of_le hle hgrants⟩

end Allocator
end MessagePack
