import Mathlib.Data.List.Infix
import Onepass.Proofs.Ids
import Onepass.Proofs.Parsing

/-!
# Onepass.Proofs.Drawing

When a node gets its number. A reader that numbers nodes as it makes them cannot know the tree
that they will be part of, nor whether there will be one. `State.made` lists the nodes made so far,
and reading only ever adds to that list (`prefix_of_step`, `madeIn_append`). So a node can be numbered
where it is made by its place in the list, and a text that is no program has used up the numbers
of the nodes on the list when reading ended.

* `made_of_readProgram` -- the nodes of a program are made in post-order, the program last.
* `numbering_of_parse`  -- the numbers in a parsed tree are those, and none is given out twice,
  in whatever texts come later.
-/

namespace Onepass
namespace Node

variable {ι : Type}

mutual

/-- The nodes below the root, from left to right, each behind those below it. -/
def parts : Node ι → List (Node ι)
  | .var _ _ | .int _ _ | .str _ _ | .read _ | .declare _ _ | .skip _ => []
  | .unary _ _ e | .assign _ _ e | .define _ _ e | .print _ e | .ret _ e => e.parts ++ [e]
  | .binary _ _ l r => l.parts ++ [l] ++ (r.parts ++ [r])
  | .call _ _ es | .function _ _ _ es | .block _ es => postorders es
  | .loop _ c es => c.parts ++ [c] ++ postorders es
  | .branch _ c ys ns => c.parts ++ [c] ++ (postorders ys ++ postorders ns)

def postorders : List (Node ι) → List (Node ι)
  | [] => []
  | e :: es => e.parts ++ [e] ++ postorders es

end

/-- All nodes, the root last. -/
def postorder (t : Node ι) : List (Node ι) := t.parts ++ [t]

theorem postorders_append (ts us : List (Node ι)) :
    postorders (ts ++ us) = postorders ts ++ postorders us := by
  induction ts with
  | nil => rfl
  | cons t ts ih => simp [postorders, ih]

mutual

theorem map_id_parts : ∀ t : Node ι, t.parts.map id ++ [t.id] = t.ids
  | .var _ _ | .int _ _ | .str _ _ | .read _ | .declare _ _ | .skip _ => rfl
  | .unary _ _ e | .assign _ _ e | .define _ _ e | .print _ e | .ret _ e => by
    simp [parts, ids, id, ← map_id_parts e]
  | .binary _ _ l r => by simp [parts, ids, id, ← map_id_parts l, ← map_id_parts r]
  | .call _ _ es | .function _ _ _ es | .block _ es => by
    simp [parts, ids, id, ← map_id_postorders es]
  | .loop _ c es => by simp [parts, ids, id, ← map_id_parts c, ← map_id_postorders es]
  | .branch _ c ys ns => by
    simp [parts, ids, id, ← map_id_parts c, ← map_id_postorders ys, ← map_id_postorders ns]

theorem map_id_postorders : ∀ ts : List (Node ι), (postorders ts).map id = idss ts
  | [] => rfl
  | t :: ts => by simp [postorders, idss, ← map_id_parts t, ← map_id_postorders ts]

end

theorem map_id_postorder (t : Node ι) : t.postorder.map id = t.ids := by
  rw [postorder, List.map_append, List.map_singleton, map_id_parts]

mutual

theorem map_erase_parts : ∀ t : Node ι, t.parts.map erase = t.erase.parts
  | .var _ _ | .int _ _ | .str _ _ | .read _ | .declare _ _ | .skip _ => rfl
  | .unary _ _ e | .assign _ _ e | .define _ _ e | .print _ e | .ret _ e => by
    simp [parts, erase, map_erase_parts e]
  | .binary _ _ l r => by simp [parts, erase, map_erase_parts l, map_erase_parts r]
  | .call _ _ es | .function _ _ _ es | .block _ es => by
    simp [parts, erase, map_erase_postorders es]
  | .loop _ c es => by simp [parts, erase, map_erase_parts c, map_erase_postorders es]
  | .branch _ c ys ns => by
    simp [parts, erase, map_erase_parts c, map_erase_postorders ys, map_erase_postorders ns]

theorem map_erase_postorders : ∀ ts : List (Node ι),
    (postorders ts).map erase = postorders (erases ts)
  | [] => rfl
  | t :: ts => by simp [postorders, erases, map_erase_parts t, map_erase_postorders ts]

end

theorem map_erase_postorder (t : Node ι) : t.postorder.map erase = t.erase.postorder := by
  simp [postorder, map_erase_parts]

mutual

theorem length_parts : ∀ t : Node ι, t.parts.length + 1 = t.size
  | .var _ _ | .int _ _ | .str _ _ | .read _ | .declare _ _ | .skip _ => rfl
  | .unary _ _ e | .assign _ _ e | .define _ _ e | .print _ e | .ret _ e => by
    simp [parts, size, length_parts e]
  | .binary _ _ l r => by
    simp only [parts, size, ← length_parts l, ← length_parts r, List.length_append,
      List.length_singleton]
  | .call _ _ es | .function _ _ _ es | .block _ es => by
    simp [parts, size, length_postorders es]
  | .loop _ c es => by
    simp only [parts, size, ← length_parts c, length_postorders es, List.length_append,
      List.length_singleton]
  | .branch _ c ys ns => by
    simp only [parts, size, ← length_parts c, length_postorders ys, length_postorders ns,
      List.length_append, List.length_singleton, Nat.add_assoc]

theorem length_postorders : ∀ ts : List (Node ι), (postorders ts).length = sizes ts
  | [] => rfl
  | t :: ts => by
    simp only [postorders, sizes, ← length_parts t, length_postorders ts, List.length_append,
      List.length_singleton]

end

theorem length_postorder (t : Node ι) : t.postorder.length = t.size := by
  rw [postorder, List.length_append, List.length_singleton, length_parts]

end Node

namespace Reader

open Node

/-! The nodes made so far, the oldest first: outer blocks before inner ones, what waits for an
operand before the operand. Only marks are missing for a node that is in the list to be as it
stays. -/

/-- The nodes of a tree that are made, all but perhaps its root. -/
def nodesMade (t : Tree) (built : Bool) : List Tree := if built then t.postorder else t.parts

namespace Pending

def made : Pending → List Tree
  | .unary _ | .group => []
  | .binary _ left => left.postorder
  | .argument _ done => postorders done.reverse

def mades : List Pending → List Tree
  | [] => []
  | p :: ps => mades ps ++ p.made

end Pending

def Context.made (ctx : Context) : List Tree := Pending.mades ctx.stack

namespace Construct

def made : Construct → List Tree
  | .function _ _ => []
  | .loop cond | .thenPart cond => cond.postorder
  | .elsePart cond yes => cond.postorder ++ postorders yes

def mades : List (Construct × List Tree) → List Tree
  | [] => []
  | (k, before) :: around => mades around ++ postorders before.reverse ++ k.made

end Construct

def Mode.made : Mode → List Tree
  | .operand ctx | .operandName ctx _ | .argsOpen ctx _ | .readWord ctx | .readOpen ctx => ctx.made
  | .behind ctx t built => ctx.made ++ nodesMade t built
  | .lineBreak k => k.made
  | .done t built => nodesMade t built
  | _ => []

/-- The nodes made so far, the oldest first. -/
def State.made (s : State) : List Tree :=
  Construct.mades s.around ++ postorders s.before.reverse ++ s.mode.made

theorem length_nodesMade (t : Tree) (built : Bool) :
    (nodesMade t built).length = builtSize t built := by
  have h := length_parts t
  cases built with
  | true => exact length_postorder t
  | false =>
    change t.parts.length = t.size - 1
    omega

theorem prefix_postorder (t : Tree) (built : Bool) : nodesMade t built <+: t.postorder := by
  cases built with
  | true => exact List.prefix_rfl
  | false => exact List.prefix_append _ _

theorem Pending.length_mades (ps : List Pending) : (mades ps).length = sizes ps := by
  induction ps with
  | nil => rfl
  | cons p ps ih =>
    cases p <;>
      simp [mades, sizes, ih, made, size, length_postorder, length_postorders, sizes_reverse,
        Nat.add_comm]

theorem Construct.length_made (k : Construct) : k.made.length = k.size := by
  cases k <;> simp [made, size, length_postorder, length_postorders]

theorem Construct.length_mades (around : List (Construct × List Tree)) :
    (mades around).length = sizes around := by
  induction around with
  | nil => rfl
  | cons p around ih =>
    obtain ⟨k, before⟩ := p
    simp only [mades, sizes, List.length_append, ih, length_postorders, sizes_reverse, length_made]
    omega

/-- All but the construct itself is made when its block ends. -/
theorem Construct.parts_close (k : Construct) (body : List Tree) :
    (k.close body).parts = k.made ++ postorders body := by
  cases k <;> simp [close, made, parts, postorder, postorders]

theorem Mode.length_made (m : Mode) : m.made.length = m.size := by
  cases m <;>
    simp [made, size, Context.made, Context.size, Pending.length_mades, length_nodesMade,
      Construct.length_made]

theorem State.length_made (s : State) : s.made.length = s.size := by
  simp only [made, size, List.length_append, Construct.length_mades, length_postorders,
    sizes_reverse, Mode.length_made]
  omega

/-- An operator is made where its last operand is complete, so behind its operands. -/
theorem prefix_of_reduce (level : Nat) (stack : List Pending) (t : Tree) :
    Pending.mades stack ++ t.postorder <+:
      Pending.mades (reduce level stack t).1 ++ (reduce level stack t).2.postorder := by
  induction stack generalizing t with
  | nil => exact List.prefix_rfl
  | cons p rest ih =>
    cases p with
    | unary op =>
      refine List.IsPrefix.trans ?_ (ih (.unary () op t))
      simp [Pending.mades, Pending.made, postorder, parts]
    | binary op left =>
      rw [reduce]
      split
      · refine List.IsPrefix.trans ?_ (ih (.binary () op left t))
        simp [Pending.mades, Pending.made, postorder, parts]
      · exact List.prefix_rfl
    | group | argument => exact List.prefix_rfl

/-- A statement is made behind the expression at its end. -/
theorem prefix_of_complete? {purpose : Purpose} {t statement : Tree}
    (h : purpose.complete? t = some statement) : t.postorder <+: statement.postorder := by
  cases purpose <;> cases h <;> simp [postorder, parts]

theorem prefix_of_settleOperand (ctx : Context) (t : Tree) (next : Category) :
    ctx.made ++ t.postorder <+: (settleOperand ctx t next).made := by
  obtain ⟨purpose, stack⟩ := ctx
  unfold settleOperand
  split
  · rename_i _ hstack
    cases hstack
    exact List.prefix_rfl
  · have hreduce := prefix_of_reduce (followLevel next) stack t
    dsimp only
    generalize reduce (followLevel next) stack t = reduced at hreduce ⊢
    obtain ⟨stack', t'⟩ := reduced
    split
    · rename_i hstack _ hstatement
      subst hstack
      exact hreduce.trans (prefix_of_complete? hstatement)
    · exact hreduce

namespace Mode

theorem prefix_of_settle (m : Mode) (next : Category) : m.made <+: (m.settle next).made := by
  cases m with
  | behind ctx t built =>
    exact ((List.prefix_append_right_inj _).mpr (prefix_postorder t built)).trans
      (prefix_of_settleOperand ctx t next)
  | operandName ctx x =>
    rw [settle]
    split
    · exact List.prefix_rfl
    · exact (List.prefix_append _ _).trans (prefix_of_settleOperand ctx _ next)
  | localName x =>
    rw [settle]
    split <;> exact List.nil_prefix
  | done t built => exact prefix_postorder t built
  | _ => exact List.prefix_rfl

theorem made_beginOperand? {ctx : Context} {l : Lexeme} {m : Mode}
    (h : beginOperand? ctx l = some m) : m.made = ctx.made := by
  unfold beginOperand? at h
  split at h
  · cases h
    rfl
  · cases h
    simp [made, nodesMade, parts]
  · cases h
    simp [made, nodesMade, parts]
  · cases h
    exact List.append_nil _
  · cases h
    rfl
  · obtain ⟨op, -, rfl⟩ := Option.map_eq_some_iff.mp h
    exact List.append_nil _

theorem made_continueOperand? {ctx : Context} {t : Tree} {l : Lexeme} {m : Mode}
    (h : continueOperand? ctx t l = some m) : m.made = ctx.made ++ t.postorder := by
  unfold continueOperand? at h
  split at h
  · cases h
    rfl
  · obtain ⟨purpose, stack⟩ := ctx
    dsimp only at h
    split at h <;> cases h <;>
      simp [made, nodesMade, Construct.made, Context.made, Pending.mades, Pending.made, parts,
        postorders_append, postorders, postorder]

theorem prefix_of_shift? {m m' : Mode} {l : Lexeme} (h : m.shift? l = some m') :
    m.made <+: m'.made := by
  unfold shift? at h
  split at h
  case h_13 => rw [made_beginOperand? h, made]
  case h_14 | h_17 =>
    cases h
    exact List.prefix_rfl
  case h_15 | h_18 =>
    cases h
    exact List.prefix_append _ _
  case h_16 =>
    rw [made_beginOperand? h]
    exact List.prefix_append _ _
  case h_19 =>
    rw [made_continueOperand? h]
    exact (List.prefix_append_right_inj _).mpr (prefix_postorder _ _)
  case h_20 => cases h
  -- The others start in a mode in which nothing is made.
  all_goals exact List.nil_prefix

end Mode

namespace State

/-- A word at the place of a statement makes no node but that of an empty line. -/
theorem prefix_of_begin? {s s' : State} {l : Lexeme} (h : s.begin? l = some s')
    (hs : s.mode = .fresh) : s.made <+: s'.made := by
  unfold begin? at h
  split at h
  case h_2 =>
    cases h
    simp [made, append, hs, Mode.made, postorders_append]
  case h_8 =>
    split at h <;> cases h
    simp [made, withMode, hs, Mode.made, Context.made, Pending.mades]
  case h_9 =>
    split at h <;> cases h
    rename_i haround
    simp [made, hs, Mode.made, haround, Construct.mades, Construct.made]
  case h_10 =>
    split at h <;> cases h
    rename_i haround
    simp [made, hs, Mode.made, nodesMade, haround, Construct.mades, Construct.parts_close]
  case h_11 =>
    split at h <;> cases h
    simp [made, withMode, hs, Mode.made]
  case h_12 => cases h
  all_goals
    cases h
    simp [made, withMode, hs, Mode.made, Context.made, Pending.mades]

theorem prefix_of_shift? {s s' : State} {l : Lexeme} (h : s.shift? l = some s') :
    s.made <+: s'.made := by
  unfold shift? at h
  split at h
  · rename_i hmode
    exact prefix_of_begin? h hmode
  · rename_i t built hmode
    cases h
    simpa [made, append, hmode, Mode.made, postorders_append, postorders, postorder] using
      prefix_postorder t built
  · rename_i t built hmode
    split at h <;> cases h
    simpa [made, append, hmode, Mode.made, postorders_append, postorders, postorder] using
      prefix_postorder t built
  · rename_i hmode
    cases h
    simp [made, hmode, Mode.made, Construct.mades, postorders]
  · obtain ⟨m, hm, rfl⟩ := Option.map_eq_some_iff.mp h
    exact (List.prefix_append_right_inj _).mpr (Mode.prefix_of_shift? hm)

theorem prefix_of_settle (s : State) (next : Category) : s.made <+: (s.settle next).made :=
  (List.prefix_append_right_inj _).mpr (Mode.prefix_of_settle s.mode next)

/-- A token adds to the nodes made and changes none of them. -/
theorem prefix_of_step {s s' : State} {t : Token} (h : s.step t = .ok s') : s.made <+: s'.made :=
  (prefix_of_settle s t.category).trans (prefix_of_shift? (step_eq_ok.mp h))

/-- The nodes made until a run ends, be it at a token that cannot stand where it does. -/
def madeIn (s : State) : List Token → List Tree
  | [] => s.made
  | t :: ts =>
    match s.step t with
    | .ok s' => s'.madeIn ts
    | .error _ => (s.settle t.category).made

theorem prefix_madeIn (s : State) (ts : List Token) : s.made <+: s.madeIn ts := by
  induction ts generalizing s with
  | nil => exact List.prefix_rfl
  | cons t ts ih =>
    rw [madeIn]
    split
    · rename_i s' hstep
      exact (prefix_of_step hstep).trans (ih s')
    · exact prefix_of_settle s t.category

/-- Tokens that are read later change no node made before. -/
theorem madeIn_append (s : State) (ts us : List Token) : s.madeIn ts <+: s.madeIn (ts ++ us) := by
  induction ts generalizing s with
  | nil => exact prefix_madeIn s us
  | cons t ts ih =>
    rw [List.cons_append, madeIn, madeIn]
    split
    · rename_i s' hstep
      exact ih s'
    · exact List.prefix_rfl

theorem madeIn_of_ok {s s' : State} {ts : List Token} (h : s.run ts = .ok s') :
    s.madeIn ts = s'.made := by
  induction ts generalizing s with
  | nil =>
    cases h
    rfl
  | cons t ts ih =>
    cases hstep : s.step t with
    | ok s₁ =>
      simp only [run, hstep] at h
      simp only [madeIn, hstep]
      exact ih h
    | error stop =>
      simp only [run, hstep] at h
      cases h

theorem length_made_of_step {s : State} {t : Token} {stop : Stop} (h : s.step t = .error stop) :
    (s.settle t.category).made.length = stop.built := by
  unfold step at h
  dsimp only at h
  split at h
  · cases h
  · cases h
    exact length_made _

/-- A run that fails counts the nodes made until then. -/
theorem madeIn_of_error {s : State} {ts : List Token} {stop : Stop} (h : s.run ts = .error stop) :
    (s.madeIn ts).length = stop.built := by
  induction ts generalizing s with
  | nil => cases h
  | cons t ts ih =>
    cases hstep : s.step t with
    | ok s₁ =>
      simp only [run, hstep] at h
      simp only [madeIn, hstep]
      exact ih h
    | error stop' =>
      simp only [run, hstep, Except.error.injEq] at h
      simp only [madeIn, hstep]
      rw [← h]
      exact length_made_of_step hstep

end State

/-- The nodes made from tokens, the program itself last if there is one. -/
def made (feed : Feed) : List Tree :=
  match readProgram feed with
  | .ok tree => State.start.madeIn feed.tokens ++ [tree]
  | .error _ => State.start.madeIn feed.tokens

theorem made_of_error {feed : Feed} {stop : Stop} (h : readProgram feed = .error stop) :
    (made feed).length = stop.built := by
  rw [made, h]
  unfold readProgram at h
  split at h
  · rename_i hrun
    cases h
    exact State.madeIn_of_error hrun
  · rename_i s _ hrun _
    cases h
    change (State.start.madeIn feed.tokens).length = s.size
    rw [State.madeIn_of_ok hrun, State.length_made]
  · cases h

/-- The nodes of a program are made in post-order, the program itself last. -/
theorem made_of_readProgram {c : Cursor} {tree : Tree} (h : readProgram c.feed = .ok tree) :
    made c.feed = tree.postorder := by
  rw [made, h]
  dsimp only
  obtain ⟨hnone, s, hreach, rfl⟩ := readProgram_eq_ok.mp h
  obtain ⟨ts, t, htokens, ht⟩ := tokens_of_feed c hnone
  rw [State.madeIn_of_ok (State.run_eq_ok.mpr hreach)]
  rw [htokens, List.map_append, List.map_singleton] at hreach
  have haccepted : s.mode = .accepted := accepted_of_reaches (ht ▸ hreach)
  have haround : s.around = [] := by
    obtain ⟨s₁, -, hlast⟩ := hreach.split
    cases hlast with
    | cons htake hrest =>
      cases hrest
      exact State.around_of_eof ht (State.step_eq_ok.mpr htake)
  rw [State.made, haccepted, haround]
  simp [Construct.mades, Mode.made, State.program, postorder, parts]

end Reader

namespace Source

/-- The nodes made while a text is read, each with the number that it gets. -/
def draws (source : String) (first : Nat) : List (Tree × Nat) :=
  (Reader.made (feed source)).zipIdx first

/-- The nodes made while texts are read one after the other, the first number of each text the
first that is left. -/
def drawsAll (first : Nat) : List String → List (Tree × Nat)
  | [] => []
  | source :: rest => draws source first ++ drawsAll (parse source first).2 rest

theorem next_parse (source : String) (first : Nat) :
    (parse source first).2 = first + (draws source first).length := by
  rw [draws, List.length_zipIdx, parse]
  cases h : Reader.readProgram (feed source) with
  | ok tree =>
    dsimp only
    rw [Node.next_number, feed, Reader.made_of_readProgram h, Node.length_postorder]
  | error stop =>
    dsimp only
    rw [Reader.made_of_error h]

theorem numbers_draws (source : String) (first : Nat) :
    (draws source first).map Prod.snd = List.range' first (draws source first).length := by
  rw [draws, List.zipIdx_map_snd, List.length_zipIdx]

/-- Texts one after the other use up consecutive numbers. -/
theorem numbers_drawsAll (first : Nat) (sources : List String) :
    (drawsAll first sources).map Prod.snd = List.range' first (drawsAll first sources).length := by
  induction sources generalizing first with
  | nil => rfl
  | cons source rest ih =>
    rw [drawsAll, List.map_append, numbers_draws, ih, List.length_append]
    exact Node.range'_append_of_eq (next_parse source first).symm

end Source

/-- A numbered tree pairs its nodes with consecutive numbers, in post-order. -/
theorem Node.postorder_number (first : Nat) (tree : Tree) :
    (tree.number first).1.postorder.map (fun t => (t.erase, t.id)) =
      tree.postorder.zipIdx first := by
  rw [← List.zip_map', map_erase_postorder, erase_number, map_id_postorder, ids_number,
    List.zipIdx_eq_zip_range', length_postorder]

theorem Node.size_number (first : Nat) (tree : Tree) : (tree.number first).1.size = tree.size := by
  rw [← length_postorder, ← List.length_map (f := id), map_id_postorder, ids_number,
    List.length_range']

/-- How the nodes of a text are numbered from `first` on. -/
structure Numbering (source : String) (first : Nat) : Prop where
  /-- Nodes get numbers when they are made, and what is read later does not change that. -/
  grows : ∀ ts us, (Source.feed source).tokens = ts ++ us →
    (Reader.State.start.madeIn ts).zipIdx first <+: Source.draws source first
  /-- The first number left is the one behind the last that was drawn. -/
  next : (Source.parse source first).2 = first + (Source.draws source first).length
  /-- A program has the numbers from `first` on in post-order, each node the one that it got when
  it was made, and no two nodes the same. -/
  ids : ∀ root, (Source.parse source first).1 = .ok root →
    root.postorder.map Node.id = List.range' first root.size ∧
    (Source.parse source first).2 = first + root.size ∧
    root.postorder.map (fun t => (t.erase, t.id)) = Source.draws source first ∧
    root.ids.Nodup
  /-- No number is drawn twice, be it for this text or for later ones, programs or not. -/
  fresh : ∀ later, ((Source.drawsAll first (source :: later)).map Prod.snd).Nodup

theorem numbering_of_parse (source : String) (first : Nat) : Numbering source first where
  grows ts us h := by
    have hall : Reader.State.start.madeIn ts <+: Reader.made (Source.feed source) := by
      have htokens := Reader.State.madeIn_append .start ts us
      rw [← h] at htokens
      unfold Reader.made
      split
      · exact htokens.trans (List.prefix_append _ _)
      · exact htokens
    obtain ⟨rest, hrest⟩ := hall
    rw [Source.draws, ← hrest, List.zipIdx_append]
    exact List.prefix_append _ _
  next := Source.next_parse source first
  ids root h := by
    have hnodup := nodup_ids_of_parse h
    obtain ⟨tree, htree, rfl⟩ := Source.parse_eq_ok h
    have hmade : Reader.made (Source.feed source) = tree.postorder :=
      Reader.made_of_readProgram htree
    refine ⟨?_, ?_, ?_, hnodup⟩
    · rw [Node.map_id_postorder, Node.ids_number, Node.size_number]
    · rw [Source.next_parse, Source.draws, hmade, List.length_zipIdx, Node.length_postorder,
        Node.size_number]
    · rw [Source.draws, hmade, Node.postorder_number]
  fresh later := by
    rw [Source.numbers_drawsAll]
    exact List.nodup_range'

/-- The assignment is made when the line turns out to go on. -/
example : Source.draws "x = y + 1 2" 7 =
    [(.var () "y", 7), (.int () 1, 8), (.binary () (.arith .add) (.var () "y") (.int () 1), 9),
      (.assign () "x" (.binary () (.arith .add) (.var () "y") (.int () 1)), 10)] := by
  decide +kernel

end Onepass
