import LightRpc.LargeBlocks

/- What the cache of large blocks is for: a list sorted by size, from which the first entry
   that is large enough is taken, into which a returned region goes behind those of its
   size, and whose last entry makes room.

   `Represents` ties the linked list to that list, one lemma for each loop says where it
   stops on it, and one for each operation what it does to it. The invariant and the account
   of the regions then follow on plain lists. -/
namespace LightRpc.LargeBlocks

open Lib Lib.Linked List Option

variable {fuel : Nat} {e : Nat × LargeBlock}

/-- Nodes of the cache in the order of the list, by address and content. -/
abbrev Entries := List (Nat × LargeBlock)

/-- The linked list of the thread is `l`. -/
def Represents (s : Cache) (l : Entries) : Prop := Chain s.nodes s.tlsLargeBlockList l

variable {s s' : Cache} {l l₁ l₂ : Entries} {a size : Nat} {x : LargeBlock} {σ : Store LargeBlock}

/-! Where the loops stop. -/

/-- The length of a region. -/
def Cache.lengthOf (s : Cache) (mr : Nat) : Nat := (s.mrs[mr]?).elim 0 Mr.length

end LightRpc.LargeBlocks
