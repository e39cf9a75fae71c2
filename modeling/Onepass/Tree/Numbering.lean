import Onepass.Tree

/-!
# Onepass.Tree.Numbering

Numbers for the nodes of a tree: consecutive, children before their parent and from left to
right, the condition of a branch before its two blocks. `Node.number n t` starts at `n` and
also gives the first number that is left.

* `erase_number` -- numbering changes nothing but the numbers.
* `next_number`  -- it uses one number for each node.
-/

namespace Onepass
namespace Node

mutual

def number (n : Nat) : Tree → Node Nat × Nat
  | .var _ x => (.var n x, n + 1)
  | .int _ k => (.int n k, n + 1)
  | .str _ s => (.str n s, n + 1)
  | .binary _ op l r =>
    let (l, n) := number n l
    let (r, n) := number n r
    (.binary n op l r, n + 1)
  | .unary _ op e =>
    let (e, n) := number n e
    (.unary n op e, n + 1)
  | .read _ => (.read n, n + 1)
  | .call _ f es =>
    let (es, n) := numbers n es
    (.call n f es, n + 1)
  | .assign _ x e =>
    let (e, n) := number n e
    (.assign n x e, n + 1)
  | .declare _ x => (.declare n x, n + 1)
  | .define _ x e =>
    let (e, n) := number n e
    (.define n x e, n + 1)
  | .print _ e =>
    let (e, n) := number n e
    (.print n e, n + 1)
  | .ret _ e =>
    let (e, n) := number n e
    (.ret n e, n + 1)
  | .branch _ c ys ns =>
    let (c, n) := number n c
    let (ys, n) := numbers n ys
    let (ns, n) := numbers n ns
    (.branch n c ys ns, n + 1)
  | .loop _ c es =>
    let (c, n) := number n c
    let (es, n) := numbers n es
    (.loop n c es, n + 1)
  | .function _ f ps es =>
    let (es, n) := numbers n es
    (.function n f ps es, n + 1)
  | .block _ es =>
    let (es, n) := numbers n es
    (.block n es, n + 1)
  | .skip _ => (.skip n, n + 1)

def numbers (n : Nat) : List Tree → List (Node Nat) × Nat
  | [] => ([], n)
  | e :: es =>
    let (e, n) := number n e
    let (es, n) := numbers n es
    (e :: es, n)

end

mutual

theorem erase_number (n : Nat) : ∀ t : Tree, (number n t).1.erase = t
  | .var _ _ | .int _ _ | .str _ _ | .read _ | .declare _ _ | .skip _ => rfl
  | .unary _ op e | .assign _ _ e | .define _ _ e | .print _ e | .ret _ e => by
    simp [number, erase, erase_number n e]
  | .binary _ op l r => by simp [number, erase, erase_number _ l, erase_number _ r]
  | .call _ _ es | .function _ _ _ es | .block _ es => by
    simp [number, erase, erases_numbers _ es]
  | .loop _ c es => by simp [number, erase, erase_number _ c, erases_numbers _ es]
  | .branch _ c ys ns => by
    simp [number, erase, erase_number _ c, erases_numbers _ ys, erases_numbers _ ns]

theorem erases_numbers (n : Nat) : ∀ ts : List Tree, erases (numbers n ts).1 = ts
  | [] => rfl
  | t :: ts => by simp [numbers, erases, erase_number _ t, erases_numbers _ ts]

end

mutual

theorem next_number (n : Nat) : ∀ t : Tree, (number n t).2 = n + t.size
  | .var _ _ | .int _ _ | .str _ _ | .read _ | .declare _ _ | .skip _ => rfl
  | .unary _ op e | .assign _ _ e | .define _ _ e | .print _ e | .ret _ e => by
    simp only [number, size, next_number n e]; omega
  | .binary _ op l r => by simp only [number, size, next_number _ l, next_number _ r]; omega
  | .call _ _ es | .function _ _ _ es | .block _ es => by
    simp only [number, size, next_numbers _ es]; omega
  | .loop _ c es => by simp only [number, size, next_number _ c, next_numbers _ es]; omega
  | .branch _ c ys ns => by
    simp only [number, size, next_number _ c, next_numbers _ ys, next_numbers _ ns]; omega

theorem next_numbers (n : Nat) : ∀ ts : List Tree, (numbers n ts).2 = n + sizes ts
  | [] => rfl
  | t :: ts => by simp only [numbers, sizes, next_number _ t, next_numbers _ ts]; omega

end

end Node
end Onepass
