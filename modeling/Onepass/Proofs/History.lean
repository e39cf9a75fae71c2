import Onepass.Compiler
import Onepass.Proofs.Renaming
import Onepass.Proofs.Symbols

/-!
# Onepass.Proofs.History

Programs compiled one after the other by one compiler. All that one of them leaves to the next is
the first number that is left, so the listing of a program is the one that it has alone with its
numbers moved up, and its error is the one that it has alone.

* `number_add` -- a tree numbered from further on is the tree with its numbers moved up.
* `compile_from` -- the same of the whole compiler.
* `independent_of_compileAll` -- the results of a run of compilations, and that no two of them
  have a numbered label in common.
-/

namespace Onepass

open Assembly

/-- Numbers moved up, and names as they are. -/
def Renaming.shift (k : Nat) : Renaming := ⟨(· + k), id, id⟩

theorem Renaming.apart_shift (k : Nat) : (shift k).Apart Set.univ Set.univ :=
  ⟨Set.injOn_id _, Set.injOn_id _⟩

/-- The listing with the numbers in its labels moved up. -/
def Assembly.Listing.shift (k : Nat) (l : Listing) : Listing := l.rename (· + k) id

namespace Node

open Renaming

mutual

theorem number_add (n k : Nat) : ∀ t : Tree,
    number (n + k) t = ((number n t).1.rename (shift k), (number n t).2 + k)
  | .var _ _ | .int _ _ | .str _ _ | .read _ | .declare _ _ | .skip _ => by
    simp [number, rename, shift, Nat.add_right_comm]
  | .unary _ _ e | .assign _ _ e | .define _ _ e | .print _ e | .ret _ e => by
    simp [number, rename, number_add n k e, shift, Nat.add_right_comm]
  | .binary _ _ l r => by
    simp [number, rename, number_add _ k l, number_add _ k r, shift, Nat.add_right_comm]
  | .call _ _ es | .function _ _ _ es | .block _ es => by
    simp [number, rename, numbers_add n k es, shift, Nat.add_right_comm]
  | .loop _ c es => by
    simp [number, rename, number_add _ k c, numbers_add _ k es, shift, Nat.add_right_comm]
  | .branch _ c ys ns => by
    simp [number, rename, number_add _ k c, numbers_add _ k ys, numbers_add _ k ns, shift,
      Nat.add_right_comm]

theorem numbers_add (n k : Nat) : ∀ ts : List Tree,
    numbers (n + k) ts = (renames (shift k) (numbers n ts).1, (numbers n ts).2 + k)
  | [] => rfl
  | t :: ts => by simp [numbers, renames, number_add _ k t, numbers_add _ k ts]

end

end Node

/-- How many numbers a program uses up, be it well formed or not. -/
def Source.drawn (source : String) : Nat := (Source.parse source 0).2

/-- How many numbers programs use up together. -/
def Source.drawnAll : List String → Nat
  | [] => 0
  | source :: rest => drawn source + drawnAll rest

theorem Source.parse_from (source : String) (k : Nat) :
    Source.parse source k =
      ((Source.parse source 0).1.map (Node.rename (.shift k)), k + Source.drawn source) := by
  simp only [Source.drawn, Source.parse]
  cases Reader.readProgram (Source.feed source) with
  | error stop => simp [Except.map]
  | ok tree =>
    have h := Node.number_add 0 k tree
    rw [Nat.zero_add] at h
    simp [h, Except.map, Nat.add_comm]

/-- The nodes of `y + 1` and the assignment are built before the second operand is found wrong. -/
example : Source.drawn "x = y + 1 2\n" = 4 := by
  decide +kernel

theorem Error.rename_id (e : Error) : e.rename id id = e := by
  cases e <;> rfl

/-- The code of a tree is that of the tree with other numbers, but for the numbers. -/
theorem generate_shift (root : Node Nat) (k : Nat) :
    generate (root.rename (.shift k)) = (generate root).map (Listing.shift k) := by
  rw [generate_rename (Renaming.apart_shift k) (fun _ _ => Set.mem_univ _)
    (fun _ _ => Set.mem_univ _)]
  cases generate root with
  | error e => exact congrArg Except.error e.rename_id
  | ok l => rfl

namespace Compiler

theorem compile_from (source : String) (k : Nat) :
    Compiler.compile ⟨k⟩ source =
      ((Onepass.compile source).map (Listing.shift k), ⟨k + Source.drawn source⟩) := by
  simp only [Onepass.compile, compile, new, Source.parse_from source k]
  cases (Source.parse source 0).1 with
  | error e => rfl
  | ok root => simp [Except.map, Except.bind, generate_shift]

/-- The results for programs compiled one after the other, also behind one that fails. -/
def compileAll (c : Compiler) : List String → List (Except Error Listing)
  | [] => []
  | source :: rest =>
    let (result, c) := c.compile source
    result :: c.compileAll rest

theorem length_compileAll (c : Compiler) (sources : List String) :
    (c.compileAll sources).length = sources.length := by
  induction sources generalizing c with
  | nil => rfl
  | cons source rest ih => simp [compileAll, ih]

theorem getElem?_compileAll (k : Nat) (sources : List String) (i : Nat) :
    (compileAll ⟨k⟩ sources)[i]? = sources[i]?.map fun source =>
      (compile ⟨k + Source.drawnAll (sources.take i)⟩ source).1 := by
  induction sources generalizing k i with
  | nil => rfl
  | cons source rest ih =>
    cases i with
    | zero => simp [compileAll, Source.drawnAll]
    | succ i => simp [compileAll, compile_from, ih, Source.drawnAll, Nat.add_assoc]

end Compiler

/-- The names of the labels that have a number in them, where they are defined or used. -/
def Assembly.Listing.numberedLabels (l : Listing) : List String :=
  ((definitions l.lines ++ uses l.lines).filter (·.node?.isSome)).map Symbol.name

/-- Each program has the result that it has alone, with its numbers moved up by as many as were
used up before, and no two listings have a numbered label in common. -/
structure Independent (sources : List String) (results : List (Except Error Listing)) : Prop where
  length : results.length = sources.length
  result : ∀ (i : Nat) (source : String), sources[i]? = some source →
    results[i]? = some ((compile source).map (Listing.shift (Source.drawnAll (sources.take i))))
  apart : ∀ (i j : Nat) (l l' : Listing), i ≠ j → results[i]? = some (.ok l) →
    results[j]? = some (.ok l') → l.numberedLabels.Disjoint l'.numberedLabels

/-- The number in a label is that of a node. -/
theorem mem_ids_of_symbol {root : Node Nat} {l : Listing} (h : generate root = .ok l) {s : Symbol}
    {i : Nat} (hs : s ∈ definitions l.lines ++ uses l.lines) (hi : s.node? = some i) :
    i ∈ root.ids := by
  obtain ⟨c, t, v, hc, hbody⟩ := lowers_of_generate h
  have hdefined : s ∈ definitions l.lines ++ externals l.lines := by
    rcases List.mem_append.mp hs with hs | hs
    · exact List.mem_append_left _ hs
    · exact mem_symbols_of_generate h s hs
  rw [(symbols_of_body hc hbody).mem_iff] at hdefined
  rcases List.mem_append.mp hdefined with hhead | hrest
  · obtain ⟨fs, -, hfs⟩ := head_symbols
    rw [hfs] at hhead
    obtain ⟨f, -, rfl⟩ := List.mem_map.mp hhead
    cases hi
  · rcases List.mem_append.mp hrest with hcode | hsize
    · have hcount := count_node_le hc hi
      rw [← List.count_pos_iff] at hcode ⊢
      exact hcode.trans_le hcount
    · rw [List.mem_singleton.mp hsize] at hi
      cases hi

/-- The numbers in the labels of a listing are those that were used up for it. -/
theorem mem_range_of_compile {source : String} {k : Nat} {l : Listing}
    (h : (Compiler.compile ⟨k⟩ source).1 = .ok l) {name : String}
    (hname : name ∈ l.numberedLabels) :
    ∃ s : Symbol, ∃ i, s.name = name ∧ s.node? = some i ∧ k ≤ i ∧ i < k + Source.drawn source := by
  obtain ⟨s, hs, rfl⟩ := List.mem_map.mp hname
  rw [List.mem_filter, Option.isSome_iff_exists] at hs
  obtain ⟨hs, i, hi⟩ := hs
  refine ⟨s, i, rfl, hi, ?_⟩
  simp only [Compiler.compile] at h
  have hnext : (Source.parse source k).2 = k + Source.drawn source := by
    rw [Source.parse_from]
  cases hroot : (Source.parse source k).1 with
  | error e =>
    rw [hroot] at h
    cases h
  | ok root =>
    rw [hroot] at h
    have hmem := mem_ids_of_symbol h hs hi
    obtain ⟨tree, htree, rfl⟩ := Source.parse_eq_ok hroot
    rw [Node.ids_number, List.mem_range'_1] at hmem
    simp only [Source.parse, htree, Node.next_number] at hnext
    omega

/-- What is used up before a later program includes what is used up for an earlier one. -/
theorem drawnAll_take_le {sources : List String} {source : String} {i j : Nat} (hij : i < j)
    (hi : sources[i]? = some source) :
    Source.drawnAll (sources.take i) + Source.drawn source ≤ Source.drawnAll (sources.take j) := by
  induction sources generalizing i j with
  | nil => cases hi
  | cons first rest ih =>
    obtain ⟨j, rfl⟩ := Nat.exists_eq_succ_of_ne_zero (Nat.ne_zero_of_lt hij)
    cases i with
    | zero =>
      cases hi
      simp [Source.drawnAll]
    | succ i =>
      have hrest := ih (Nat.lt_of_succ_lt_succ hij) hi
      simp only [List.take_succ_cons, Source.drawnAll]
      omega

theorem disjoint_of_compileAll {sources : List String} {i j : Nat} {l l' : Listing} (hij : i < j)
    (hl : (Compiler.new.compileAll sources)[i]? = some (.ok l))
    (hl' : (Compiler.new.compileAll sources)[j]? = some (.ok l')) :
    l.numberedLabels.Disjoint l'.numberedLabels := by
  rw [Compiler.new, Compiler.getElem?_compileAll, Option.map_eq_some_iff] at hl hl'
  obtain ⟨source, hi, hl⟩ := hl
  obtain ⟨source', -, hl'⟩ := hl'
  intro name hname hname'
  obtain ⟨s, a, rfl, ha, -, hlt⟩ := mem_range_of_compile hl hname
  obtain ⟨s', b, hs', hb, hle, -⟩ := mem_range_of_compile hl' hname'
  rw [Symbol.name_injective hs', ha, Option.some.injEq] at hb
  have hsum := drawnAll_take_le hij hi
  omega

/-- Compilations by one compiler, failed ones included, do not influence each other but by the
numbers that they use up. -/
theorem independent_of_compileAll (sources : List String) :
    Independent sources (Compiler.new.compileAll sources) := by
  refine ⟨Compiler.length_compileAll _ _, ?_, ?_⟩
  · intro i source hi
    rw [Compiler.new, Compiler.getElem?_compileAll, hi, Option.map_some, Compiler.compile_from,
      Nat.zero_add]
  · intro i j l l' hij hl hl'
    rcases Nat.lt_or_gt_of_ne hij with hij | hij
    · exact disjoint_of_compileAll hij hl hl'
    · exact List.disjoint_symm (disjoint_of_compileAll hij hl' hl)

end Onepass
