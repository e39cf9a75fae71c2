import Mathlib.Data.List.Range
import Onepass.Proofs.Lowers

/-!
# Onepass.Proofs.Ids

The numbers in a tree. `Node.ids` lists them in the order in which they are given out: children
before their parent and from left to right.

* `ids_number` -- a numbered tree has consecutive numbers.
* `nodup_ids_of_parse` -- no two nodes of a parsed program have the same number.
-/

namespace Onepass
namespace Node

variable {ι : Type}

mutual

def ids : Node ι → List ι
  | .var i _ | .int i _ | .str i _ | .read i | .declare i _ | .skip i => [i]
  | .unary i _ e | .assign i _ e | .define i _ e | .print i e | .ret i e => e.ids ++ [i]
  | .binary i _ l r => l.ids ++ (r.ids ++ [i])
  | .call i _ es | .function i _ _ es | .block i es => idss es ++ [i]
  | .loop i c es => c.ids ++ (idss es ++ [i])
  | .branch i c ys ns => c.ids ++ (idss ys ++ (idss ns ++ [i]))

def idss : List (Node ι) → List ι
  | [] => []
  | e :: es => e.ids ++ idss es

end

/-- Two runs of consecutive numbers, the second where the first ends. -/
theorem range'_append_of_eq {n m k j : Nat} (h : n + m = k) :
    List.range' n m ++ List.range' k j = List.range' n (m + j) := by
  subst h
  exact List.range'_append_1

theorem range'_snoc_of_eq {n m k : Nat} (h : n + m = k) :
    List.range' n m ++ [k] = List.range' n (m + 1) := by
  subst h
  exact (List.range'_1_concat).symm

mutual

theorem ids_number (n : Nat) : ∀ t : Tree, (number n t).1.ids = List.range' n t.size
  | .var _ _ | .int _ _ | .str _ _ | .read _ | .declare _ _ | .skip _ => rfl
  | .unary _ _ e | .assign _ _ e | .define _ _ e | .print _ e | .ret _ e => by
    simp only [number, ids, size, ids_number n e]
    exact range'_snoc_of_eq (next_number n e).symm
  | .binary _ _ l r => by
    simp only [number, ids, size, ids_number _ l, ids_number _ r]
    rw [range'_snoc_of_eq (next_number _ r).symm, range'_append_of_eq (next_number n l).symm,
      Nat.add_assoc]
  | .call _ _ es | .function _ _ _ es | .block _ es => by
    simp only [number, ids, size, idss_numbers n es]
    exact range'_snoc_of_eq (next_numbers n es).symm
  | .loop _ c es => by
    simp only [number, ids, size, ids_number _ c, idss_numbers _ es]
    rw [range'_snoc_of_eq (next_numbers _ es).symm, range'_append_of_eq (next_number n c).symm,
      Nat.add_assoc]
  | .branch _ c ys ns => by
    simp only [number, ids, size, ids_number _ c, idss_numbers _ ys, idss_numbers _ ns]
    rw [range'_snoc_of_eq (next_numbers _ ns).symm, range'_append_of_eq (next_numbers _ ys).symm,
      range'_append_of_eq (next_number n c).symm, Nat.add_assoc, Nat.add_assoc]

theorem idss_numbers (n : Nat) : ∀ ts : List Tree, idss (numbers n ts).1 = List.range' n (sizes ts)
  | [] => rfl
  | t :: ts => by
    simp only [numbers, idss, sizes, ids_number _ t, idss_numbers _ ts]
    exact range'_append_of_eq (next_number n t).symm

end

end Node

/-- A parsed program is a tree that was read, numbered. -/
theorem Source.parse_eq_ok {source : String} {n : Nat} {root : Node Nat}
    (h : (Source.parse source n).1 = .ok root) :
    ∃ tree, Reader.readProgram (Source.feed source) = .ok tree ∧ root = (tree.number n).1 := by
  simp only [Source.parse] at h
  cases hr : Reader.readProgram (Source.feed source) with
  | error stop =>
    rw [hr] at h
    cases h
  | ok tree =>
    rw [hr] at h
    cases h
    exact ⟨tree, rfl, rfl⟩

theorem nodup_ids_of_parse {source : String} {n : Nat} {root : Node Nat}
    (h : (Source.parse source n).1 = .ok root) : root.ids.Nodup := by
  obtain ⟨tree, -, rfl⟩ := Source.parse_eq_ok h
  rw [Node.ids_number]
  exact List.nodup_range'

namespace Piece

def ids : Piece → List Nat
  | .node n => n.ids
  | .block body => Node.idss body
  | .args as => Node.idss as

end Piece
end Onepass
