import Mathlib.Data.List.Basic

/-! Doubly linked lists of nodes, from their first node to null. -/
namespace Kokos.LinkedLists

variable {α : Type}

def Links (next previous : α → α) (null : α) : α → List α → Prop
  | _, [] => True
  | p, c::l => previous c = p ∧ next c = l.headD null ∧ Links next previous null c l

variable {next previous next' previous' : α → α} {null p p' c : α} {k l l' : List α}

theorem linksNext (links : Links next previous null p (k ++ c::l)) : next c = l.headD null := by
  induction k generalizing p with
  | nil => exact links.2.1
  | cons a k ih => exact ih links.2.2

theorem linksPrevious {d : α} (links : Links next previous null p (k ++ c::d::l)) : previous d = c := by
  induction k generalizing p with
  | nil => exact links.2.2.1
  | cons a k ih => exact ih links.2.2

theorem linksSame (links : Links next previous null p l) (first : ∀ d, l.head? = some d → previous' d = p')
    (nexts : ∀ x ∈ l, next' x = next x) (previouses : ∀ x ∈ l.tail, previous' x = previous x) :
    Links next' previous' null p' l := by
  induction l generalizing p p' with
  | nil => exact links
  | cons c l ih =>
    obtain ⟨_,onward,rest⟩ := links
    refine ⟨first c rfl,(nexts c List.mem_cons_self).trans onward,?_⟩
    refine ih rest (fun d head => ?_) (fun x member => nexts x (List.mem_cons_of_mem _ member))
      fun x member => previouses x (List.mem_of_mem_tail member)
    cases l with
    | nil => cases head
    | cons e l =>
      cases head
      exact (previouses _ List.mem_cons_self).trans rest.1

theorem linksRest (links : Links next previous null p (k ++ c::l)) : Links next previous null c l := by
  induction k generalizing p with
  | nil => exact links.2.2
  | cons a k ih => exact ih links.2.2

theorem linksTail (links : Links next previous null p (k ++ c::l)) (here : next' c = l'.headD null)
    (tail : Links next' previous' null c l') (nexts : ∀ x ∈ k, next' x = next x)
    (previouses : ∀ x ∈ k ++ [c], previous' x = previous x) : Links next' previous' null p (k ++ c::l') := by
  induction k generalizing p with
  | nil => exact ⟨(previouses c List.mem_cons_self).trans links.1,here,tail⟩
  | cons a k ih =>
    obtain ⟨back,onward,rest⟩ := links
    refine ⟨(previouses a List.mem_cons_self).trans back,(nexts a List.mem_cons_self).trans ?_,?_⟩
    · rw [onward]
      cases k <;> rfl
    · exact ih rest (fun x member => nexts x (List.mem_cons_of_mem _ member))
        fun x member => previouses x (List.mem_cons_of_mem _ member)

theorem headApart (distinct : (k ++ l).Nodup) (proper : ∀ x ∈ k, x ≠ null) :
    (∀ x ∈ k, x ≠ l.headD null) ∧ ∀ x ∈ l.tail, x ≠ l.headD null := by
  obtain ⟨_,later,between⟩ := List.nodup_append.mp distinct
  cases l with
  | nil => exact ⟨proper,fun x member => nomatch member⟩
  | cons e l =>
    refine ⟨fun x member => between x member e List.mem_cons_self,fun x member same => ?_⟩
    have here : x = e := same
    exact (List.nodup_cons.mp later).1 (here ▸ member)

section
variable [DecidableEq α] {n q : α}

theorem linksInsert (links : Links next previous null p (k ++ c::l)) (distinct : (k ++ c::n::l).Nodup)
    (proper : ∀ x ∈ k ++ c::n::l, x ≠ null)
    (nexts : ∀ x ∈ k ++ c::n::l, next' x = if x = c then n else if x = n then l.headD null else next x)
    (previouses : ∀ x ∈ k ++ c::n::l, previous' x = if x = l.headD null then n else if x = n then c else previous x) :
    Links next' previous' null p (k ++ c::n::l) := by
  have ahead : k ++ c::n::l = (k ++ [c,n]) ++ l := by simp
  have first : ∀ x ∈ k ++ [c,n], x ∈ k ++ c::n::l := fun x member => ahead ▸ List.mem_append_left l member
  have last : ∀ x ∈ l, x ∈ k ++ c::n::l := fun x member => ahead ▸ List.mem_append_right _ member
  obtain ⟨front,back⟩ := headApart (ahead ▸ distinct) fun x member => proper x (first x member)
  obtain ⟨_,rest,between⟩ := List.nodup_append.mp distinct
  obtain ⟨notC,rest⟩ := List.nodup_cons.mp rest
  obtain ⟨notN,_⟩ := List.nodup_cons.mp rest
  have other : c ≠ n := fun same => notC (same ▸ List.mem_cons_self)
  refine linksTail links ?_ ⟨?_,?_,linksSame (linksRest links) ?_ ?_ ?_⟩ ?_ ?_
  · exact (nexts c (first c (by simp))).trans (if_pos rfl)
  · exact (previouses n (first n (by simp))).trans ((if_neg (front n (by simp))).trans (if_pos rfl))
  · exact (nexts n (first n (by simp))).trans ((if_neg other.symm).trans (if_pos rfl))
  · intro e head
    have here : e = l.headD null := by rw [List.headD_eq_head?_getD,head,Option.getD_some]
    exact (previouses e (last e (List.mem_of_head? head))).trans (if_pos here)
  · intro x member
    have c' : x ≠ c := fun same => notC (same ▸ List.mem_cons_of_mem _ member)
    have n' : x ≠ n := fun same => notN (same ▸ member)
    exact (nexts x (last x member)).trans ((if_neg c').trans (if_neg n'))
  · intro x member
    have n' : x ≠ n := fun same => notN (same ▸ List.mem_of_mem_tail member)
    exact (previouses x (last x (List.mem_of_mem_tail member))).trans ((if_neg (back x member)).trans (if_neg n'))
  · intro x member
    have c' : x ≠ c := between x member c List.mem_cons_self
    have n' : x ≠ n := between x member n (List.mem_cons_of_mem _ List.mem_cons_self)
    exact (nexts x (List.mem_append_left _ member)).trans ((if_neg c').trans (if_neg n'))
  · intro x member
    have known : x ∈ k ++ [c,n] := by simp at member ⊢; tauto
    have n' : x ≠ n := by
      rcases List.mem_append.mp member with early | here
      · exact between x early n (List.mem_cons_of_mem _ List.mem_cons_self)
      · exact List.mem_singleton.mp here ▸ other
    exact (previouses x (first x known)).trans ((if_neg (front x known)).trans (if_neg n'))

theorem linksRemove (links : Links next previous null p (k ++ q::c::l)) (distinct : (k ++ q::l).Nodup)
    (proper : ∀ x ∈ k ++ q::l, x ≠ null)
    (nexts : ∀ x ∈ k ++ q::l, next' x = if x = q then l.headD null else next x)
    (previouses : ∀ x ∈ k ++ q::l, previous' x = if x = l.headD null then q else previous x) :
    Links next' previous' null p (k ++ q::l) := by
  have ahead : k ++ q::l = (k ++ [q]) ++ l := by simp
  have first : ∀ x ∈ k ++ [q], x ∈ k ++ q::l := fun x member => ahead ▸ List.mem_append_left l member
  have last : ∀ x ∈ l, x ∈ k ++ q::l := fun x member => ahead ▸ List.mem_append_right _ member
  obtain ⟨front,back⟩ := headApart (ahead ▸ distinct) fun x member => proper x (first x member)
  obtain ⟨_,rest,between⟩ := List.nodup_append.mp distinct
  have notQ := (List.nodup_cons.mp rest).1
  have behind : Links next previous null c l := linksRest (k := k ++ [q]) (by rwa [← List.append_cons])
  refine linksTail links ?_ (linksSame behind ?_ ?_ ?_) ?_ ?_
  · exact (nexts q (first q (by simp))).trans (if_pos rfl)
  · intro e head
    have here : e = l.headD null := by rw [List.headD_eq_head?_getD,head,Option.getD_some]
    exact (previouses e (last e (List.mem_of_head? head))).trans (if_pos here)
  · intro x member
    have q' : x ≠ q := fun same => notQ (same ▸ member)
    exact (nexts x (last x member)).trans (if_neg q')
  · intro x member
    exact (previouses x (last x (List.mem_of_mem_tail member))).trans (if_neg (back x member))
  · intro x member
    have q' : x ≠ q := between x member q List.mem_cons_self
    exact (nexts x (List.mem_append_left _ member)).trans (if_neg q')
  · intro x member
    exact (previouses x (first x member)).trans (if_neg (front x member))

end

theorem pairwiseInsert {R R' : α → α → Prop} {n : α} (order : (k ++ c::l).Pairwise R)
    (keeps : ∀ x ∈ k ++ c::l, ∀ y, R x y → R' x y) (before : ∀ x ∈ k ++ [c], R' x n) (beyond : ∀ x ∈ l, R' n x) :
    (k ++ c::n::l).Pairwise R' := by
  have order' : (k ++ c::l).Pairwise R' := order.imp_of_mem fun first _ h => keeps _ first _ h
  obtain ⟨front,tail,between⟩ := List.pairwise_append.mp order'
  obtain ⟨next,back⟩ := List.pairwise_cons.mp tail
  refine List.pairwise_append.mpr ⟨front,List.pairwise_cons.mpr ⟨fun x member => ?_,?_⟩,fun a first x member => ?_⟩
  · rcases List.mem_cons.mp member with rfl | later
    · exact before c (by simp)
    · exact next x later
  · exact List.pairwise_cons.mpr ⟨beyond,back⟩
  · rcases List.mem_cons.mp member with rfl | rest
    · exact between a first x List.mem_cons_self
    · rcases List.mem_cons.mp rest with rfl | later
      · exact before a (List.mem_append_left _ first)
      · exact between a first x (List.mem_cons_of_mem _ later)

end Kokos.LinkedLists
