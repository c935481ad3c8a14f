-- SUMMARY: Copies between the kernel and user memory that may stop before the end.
import LinuxShare.Lib.Bytes

/-!
# Copies to and from user memory

`copy_from_user` and `copy_to_user` return the number of bytes that they could not
copy. Those are the last ones; all bytes before them have arrived.
-/

namespace UserCopy

open Bytes

/-- The `n` bytes of the kernel's buffer after `copy_from_user` could not copy the last
`left` of them, where `rest` is what it leaves in their place. -/
def copyFromUser (n : Nat) (src rest : Mem) (left : Nat) : Mem :=
  fun j => if j + left < n then src j else rest j

theorem copyFromUser_zero {n j : Nat} (h : j < n) (src rest : Mem) :
    copyFromUser n src rest 0 j = src j := if_pos h

/-- The bytes of `src` that have arrived when `copy_to_user` could not copy the last `left`. -/
def copyToUser (src : List UInt8) (left : Nat) : List UInt8 := src.take (src.length - left)

@[simp] theorem copyToUser_zero (src : List UInt8) : copyToUser src 0 = src := by
  simp [copyToUser]

/-- What a read handler leaves: its result, the bytes it has put into the user's buffer, and
the index of the first of them. -/
structure Answer where
  ret : Int
  data : List UInt8
  off : Nat := 0

/-- The contract of a read of `size` bytes, where `ok` says whether the device and the copies
have worked. The buffer is of `size` bytes, and nothing is written behind it. -/
structure ReadContract (ok : Prop) (size : Nat) (answer : Answer) : Prop where
  fits : ∀ i < answer.data.length, answer.off + i < size
  counts : ok → answer.ret = answer.data.length
  fails : ¬ ok → answer.ret < 0

/-- A result that is not an error breaks the contract of a read that has failed. -/
theorem ReadContract.ok {ok : Prop} {size : Nat} {answer : Answer}
    (h : ReadContract ok size answer) (hret : 0 ≤ answer.ret) : ok :=
  not_not.mp fun hnot => Int.not_lt.mpr hret (h.fails hnot)

end UserCopy
