import NostrMultiPlatform.Tables

/-!
# Slots kept by their owners

A table of values, each kept while some owner is attached. Attaching may replace
the value of the slot it joins; the last owner to go takes the slot along.
-/
namespace OwnedSlots

open Tables

variable {κ ω ι : Type} [DecidableEq κ]

structure Slot (ω ι : Type) where
  value : ι
  owners : Finset ω

abbrev Slots (κ ω ι : Type) [DecidableEq κ] := Table κ (Slot ω ι)

def value (slots : Slots κ ω ι) (k : κ) : Option ι := (slots.lookup k).map Slot.value

variable [DecidableEq ω]

def attach (slots : Slots κ ω ι) (replace : Bool) (k : κ) (owner : ω) (v : ι) : Slots κ ω ι :=
  match slots.lookup k with
  | none => slots.insert k ⟨v, {owner}⟩
  | some slot => slots.insert k ⟨if replace then v else slot.value, insert owner slot.owners⟩

/-- The answer is whether the slot went with its owner. -/
def detach (slots : Slots κ ω ι) (k : κ) (owner : ω) : Bool × Slots κ ω ι :=
  match slots.lookup k with
  | none => (false, slots)
  | some slot =>
    if slot.owners.erase owner = ∅ then (true, slots.erase k)
    else (false, slots.insert k { slot with owners := slot.owners.erase owner })

end OwnedSlots
