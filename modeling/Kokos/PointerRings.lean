import Mathlib.Data.List.Rotate

/-! Rings of nodes that point to their successor. A ring is written as one of its
nodes and the list of the others in order. -/
namespace Kokos.PointerRings

variable {α : Type}

def Path (next : α → α) : α → List α → α → Prop
  | a, [], b => next a = b
  | a, c::l, b => next a = c ∧ Path next c l b

structure Ring (next : α → α) (head : α) (rest : List α) : Prop where
  closed : Path next head rest head
  distinct : (head::rest).Nodup

variable {next next' : α → α} {a b c p : α} {l : List α}

theorem pathCongr (path : Path next a l b) (first : next' p = next a) (same : ∀ x ∈ l, next' x = next x) :
    Path next' p l b := by
  induction l generalizing a p with
  | nil => exact first.trans path
  | cons d l ih =>
    exact ⟨first.trans path.1,ih path.2 (same d List.mem_cons_self) fun x member => same x (List.mem_cons_of_mem _ member)⟩

theorem pathExtend (path : Path next a l b) (last : next b = c) : Path next a (l ++ [b]) c := by
  induction l generalizing a with
  | nil => exact ⟨path,last⟩
  | cons d l ih => exact ⟨path.1,ih path.2⟩

theorem pathLast (path : Path next a l b) : ∃ q ∈ a::l, next q = b := by
  induction l generalizing a with
  | nil => exact ⟨a,List.mem_cons_self,path⟩
  | cons d l ih =>
    obtain ⟨q,member,last⟩ := ih path.2
    exact ⟨q,List.mem_cons_of_mem _ member,last⟩

theorem pathInto (path : Path next a l b) {x : α} (member : x ∈ l) : ∃ q ∈ a::l, next q = x ∧ (q = x → ¬ (a::l).Nodup) := by
  induction l generalizing a with
  | nil => cases member
  | cons d l ih =>
    rcases List.mem_cons.mp member with rfl | deeper
    · refine ⟨a,List.mem_cons_self,path.1,fun same distinct => ?_⟩
      exact (List.nodup_cons.mp distinct).1 (same ▸ List.mem_cons_self)
    · obtain ⟨q,there,points,different⟩ := ih path.2 deeper
      exact ⟨q,List.mem_cons_of_mem _ there,points,fun same distinct => different same (List.nodup_cons.mp distinct).2⟩

theorem ringTurn {d : α} (ring : Ring next c (d::l)) : Ring next d (l ++ [c]) where
  closed := pathExtend ring.closed.2 ring.closed.1
  distinct := by
    have turned := (List.nodup_rotate (n := 1)).mpr ring.distinct
    rwa [List.rotate_cons_succ,List.rotate_zero] at turned

theorem ringSame (ring : Ring next c l) (same : ∀ x ∈ c::l, next' x = next x) : Ring next' c l where
  closed := pathCongr ring.closed (same c List.mem_cons_self) fun x member => same x (List.mem_cons_of_mem _ member)
  distinct := ring.distinct

theorem ringInsert (ring : Ring next c l) (fresh : p ∉ c::l) (here : next' c = p) (onward : next' p = next c)
    (same : ∀ x ∈ l, next' x = next x) : Ring next' c (p::l) where
  closed := ⟨here,pathCongr ring.closed onward same⟩
  distinct := by
    have apart := List.nodup_cons.mp ring.distinct
    rw [List.mem_cons,not_or] at fresh
    refine List.nodup_cons.mpr ⟨?_,List.nodup_cons.mpr ⟨fresh.2,apart.2⟩⟩
    rw [List.mem_cons,not_or]
    exact ⟨fun same => fresh.1 same.symm,apart.1⟩

theorem ringBefore {x d : α} (ring : Ring next c (d::l)) (member : x ∈ c::d::l) : ∃ q ∈ c::d::l, next q = x ∧ q ≠ x := by
  rcases List.mem_cons.mp member with rfl | inside
  · obtain ⟨q,there,points⟩ := pathLast ring.closed.2
    refine ⟨q,List.mem_cons_of_mem _ there,points,?_⟩
    rintro rfl
    exact (List.nodup_cons.mp ring.distinct).1 there
  · obtain ⟨q,there,points,different⟩ := pathInto ring.closed inside
    exact ⟨q,there,points,fun same => different same ring.distinct⟩

theorem roundPerm {r visited : List α} (heads : ∀ i (h : i < visited.length), (r.rotate (i+1)).head? = some visited[i])
    (round : visited.length = r.length) : visited.Perm r := by
  have turned : visited = r.rotate 1 := by
    refine List.ext_getElem (by rw [List.length_rotate,round]) fun i here there => ?_
    have head := heads i here
    rw [List.head?_eq_getElem?,List.getElem?_rotate (by omega),Nat.zero_add] at head
    rw [List.getElem_rotate]
    obtain ⟨_,value⟩ := List.getElem?_eq_some_iff.mp head
    exact value.symm
  rw [turned]
  exact List.rotate_perm r 1

end Kokos.PointerRings
