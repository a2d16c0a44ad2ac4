import Kokos.PhysicalCpus

/-! Pages that several CPUs reserve, allocate and free after boot. A CPU may free any page
that is held, whoever allocated it, but no two CPUs free the same one at once. None calls
allocate_consecutive, which can leave the cursor behind the table. -/
namespace Kokos.PhysicalSharing
open TransitionRuns LockedSections LockedCalls PhysicalMemory PhysicalCpus

variable {ι : Type}

def held : List (ι × PhysicalCpus.Call × Result) → Finset Nat
  | [] => ∅
  | (_,.allocate,.page address)::h => insert address (held h)
  | (_,.free address,_)::h => (held h).erase address
  | _::h => held h

abbrev Machine (ι : Type) := Cpus ι PhysicalMemory.State PhysicalCpus.Call Position Result

def Orderly : List (ι × PhysicalCpus.Call × Result) → Prop
  | [] => True
  | (_,.allocate,_)::h => Orderly h
  | (_,.reserve _ _,_)::h => Orderly h
  | (_,.free address,_)::h => address ∈ held h ∧ Orderly h
  | _::_ => False

variable [DecidableEq ι]

end Kokos.PhysicalSharing
