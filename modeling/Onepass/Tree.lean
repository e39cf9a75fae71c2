import Onepass.Operator

/-!
# Onepass.Tree

Programs as trees. Every node has a mark of type `ι`: a `Tree` has none worth speaking of, as
the reader of programs builds it, and a `Node Nat` has a number, from which the labels of its
code are made.

A block has the same form wherever it stands, a list of nodes. A branch without an `else` has
an empty second list.
-/

namespace Onepass

inductive Node (ι : Type) where
  | var (id : ι) (name : String)
  | int (id : ι) (value : Word)
  | str (id : ι) (text : String)
  | binary (id : ι) (op : BinaryOp) (left right : Node ι)
  | unary (id : ι) (op : UnaryOp) (operand : Node ι)
  | read (id : ι)
  | call (id : ι) (name : String) (args : List (Node ι))
  | assign (id : ι) (name : String) (value : Node ι)
  /-- A local variable without an initial value. -/
  | declare (id : ι) (name : String)
  /-- A local variable with an initial value. -/
  | define (id : ι) (name : String) (value : Node ι)
  | print (id : ι) (value : Node ι)
  | ret (id : ι) (value : Node ι)
  | branch (id : ι) (cond : Node ι) (yes no : List (Node ι))
  | loop (id : ι) (cond : Node ι) (body : List (Node ι))
  | function (id : ι) (name : String) (params : List String) (body : List (Node ι))
  | block (id : ι) (body : List (Node ι))
  | skip (id : ι)

/-- A program without numbers. -/
abbrev Tree := Node Unit

namespace Node

variable {ι : Type}

/-- The mark of the root. -/
def id : Node ι → ι
  | .var i _ | .int i _ | .str i _ | .binary i _ _ _ | .unary i _ _ | .read i | .call i _ _
  | .assign i _ _ | .declare i _ | .define i _ _ | .print i _ | .ret i _ | .branch i _ _ _
  | .loop i _ _ | .function i _ _ _ | .block i _ | .skip i => i

/-- The statement that ends a block's run. -/
def isReturn : Node ι → Bool
  | .ret _ _ => true
  | _ => false

mutual

/-- The number of nodes. -/
def size : Node ι → Nat
  | .var _ _ | .int _ _ | .str _ _ | .read _ | .declare _ _ | .skip _ => 1
  | .unary _ _ e | .assign _ _ e | .define _ _ e | .print _ e | .ret _ e => e.size + 1
  | .binary _ _ l r => l.size + r.size + 1
  | .call _ _ es | .function _ _ _ es | .block _ es => sizes es + 1
  | .loop _ c es => c.size + sizes es + 1
  | .branch _ c ys ns => c.size + sizes ys + sizes ns + 1

def sizes : List (Node ι) → Nat
  | [] => 0
  | e :: es => e.size + sizes es

end

mutual

/-- The tree without its numbers. -/
def erase : Node ι → Tree
  | .var _ x => .var () x
  | .int _ n => .int () n
  | .str _ s => .str () s
  | .binary _ op l r => .binary () op l.erase r.erase
  | .unary _ op e => .unary () op e.erase
  | .read _ => .read ()
  | .call _ f es => .call () f (erases es)
  | .assign _ x e => .assign () x e.erase
  | .declare _ x => .declare () x
  | .define _ x e => .define () x e.erase
  | .print _ e => .print () e.erase
  | .ret _ e => .ret () e.erase
  | .branch _ c ys ns => .branch () c.erase (erases ys) (erases ns)
  | .loop _ c es => .loop () c.erase (erases es)
  | .function _ f ps es => .function () f ps (erases es)
  | .block _ es => .block () (erases es)
  | .skip _ => .skip ()

def erases : List (Node ι) → List Tree
  | [] => []
  | e :: es => e.erase :: erases es

end

section

variable [DecidableEq ι]

mutual

/-- Are the trees equal? -/
def same : Node ι → Node ι → Bool
  | .var i x, .var j y => i = j && x = y
  | .int i n, .int j m => i = j && n = m
  | .str i s, .str j u => i = j && s = u
  | .binary i op l r, .binary j op' l' r' => i = j && op = op' && same l l' && same r r'
  | .unary i op e, .unary j op' e' => i = j && op = op' && same e e'
  | .read i, .read j => i = j
  | .call i f es, .call j g es' => i = j && f = g && sames es es'
  | .assign i x e, .assign j y e' => i = j && x = y && same e e'
  | .declare i x, .declare j y => i = j && x = y
  | .define i x e, .define j y e' => i = j && x = y && same e e'
  | .print i e, .print j e' => i = j && same e e'
  | .ret i e, .ret j e' => i = j && same e e'
  | .branch i c ys ns, .branch j c' ys' ns' =>
    i = j && same c c' && sames ys ys' && sames ns ns'
  | .loop i c es, .loop j c' es' => i = j && same c c' && sames es es'
  | .function i f ps es, .function j g qs es' => i = j && f = g && ps = qs && sames es es'
  | .block i es, .block j es' => i = j && sames es es'
  | .skip i, .skip j => i = j
  | _, _ => false

def sames : List (Node ι) → List (Node ι) → Bool
  | [], [] => true
  | e :: es, e' :: es' => same e e' && sames es es'
  | _, _ => false

end

mutual

theorem same_iff : ∀ t u : Node ι, same t u = true ↔ t = u
  | .var _ _, u | .int _ _, u | .str _ _, u | .read _, u | .declare _ _, u | .skip _, u => by
    cases u <;> simp [same]
  | .unary _ _ e, u | .assign _ _ e, u | .define _ _ e, u | .print _ e, u | .ret _ e, u => by
    cases u <;> simp [same, same_iff e, and_assoc]
  | .binary _ _ l r, u => by cases u <;> simp [same, same_iff l, same_iff r, and_assoc]
  | .call _ _ es, u | .function _ _ _ es, u | .block _ es, u => by
    cases u <;> simp [same, sames_iff es, and_assoc]
  | .loop _ c es, u => by cases u <;> simp [same, same_iff c, sames_iff es, and_assoc]
  | .branch _ c ys ns, u => by
    cases u <;> simp [same, same_iff c, sames_iff ys, sames_iff ns, and_assoc]

theorem sames_iff : ∀ ts us : List (Node ι), sames ts us = true ↔ ts = us
  | [], us => by cases us <;> simp [sames]
  | t :: ts, us => by cases us <;> simp [sames, same_iff t, sames_iff ts]

end

instance : DecidableEq (Node ι) := fun t u => decidable_of_iff _ (same_iff t u)

end

theorem size_pos (t : Node ι) : 0 < t.size := by
  cases t <;> simp [size]

theorem sizes_append (ts us : List (Node ι)) : sizes (ts ++ us) = sizes ts + sizes us := by
  induction ts with
  | nil => simp [sizes]
  | cons t ts ih => simp [sizes, ih, Nat.add_assoc]

theorem sizes_reverse (ts : List (Node ι)) : sizes ts.reverse = sizes ts := by
  induction ts with
  | nil => rfl
  | cons t ts ih => simp [sizes, sizes_append, ih, Nat.add_comm]

end Node
end Onepass
