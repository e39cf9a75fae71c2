import Onepass.Proofs.Calls
import Onepass.Proofs.Control

/-!
# Onepass.Proofs.Preservation

A program that ends is compiled to a listing that prints the same numbers. The run of the program
carries the proof: each of its rules is a lemma about the code of the node, and a call starts over
in the frame of the function.

* `follows_of_run`    -- the code of a piece does what the piece does, in whatever frame.
* `prints_of_compile` -- from the entry to the foot, with the same numbers printed.
-/

namespace Onepass

open Assembly Lowering

theorem returns_of_isReturn {fs : List Function} {d n σ ω o ω'}
    (h : Run fs d (.node n) σ ω o ω') (hn : n.isReturn = true) : ∃ v, o = .returns v := by
  cases n with
  | ret =>
    cases h
    exact ⟨_, rfl⟩
  | _ => cases hn

/-- The body of a function is a part of the program. -/
theorem sizes_of_mem_functions {p t c t' v} (h : Lowers p t c t' v) {f : Function}
    (hf : f ∈ p.functions) : Node.sizes f.body ≤ p.size := by
  induction h with
  | var | int | str | read | declare | skip | nil | noArgs => cases hf
  | unary _ _ ih | call _ _ _ ih | assign _ _ ih | print _ ih | ret _ ih | block _ ih
  | define _ _ _ ih =>
    have := ih hf
    simp only [Piece.size, Node.size] at *
    omega
  | binary _ _ _ ih ih' | loop _ _ ih ih' | arg _ _ ih ih' =>
    simp only [Piece.size, Node.size, Node.sizes] at *
    rcases List.mem_append.mp hf with hf | hf
    · have := ih hf
      omega
    · have := ih' hf
      omega
  | branch _ _ _ ih ihy ihn =>
    simp only [Piece.size, Node.size] at *
    rcases List.mem_append.mp hf with hf | hf
    · have := ih hf
      omega
    rcases List.mem_append.mp hf with hf | hf
    · have := ihy hf
      omega
    · have := ihn hf
      omega
  | function _ _ _ ih =>
    simp only [Piece.size, Node.size] at *
    rcases List.mem_cons.mp hf with rfl | hf
    · exact Nat.le_succ _
    · have := ih hf
      omega
  | last hret _ ih =>
    simp only [Piece.functions, Node.blockFunctions, hret, if_true, List.append_nil] at hf
    have := ih hf
    simp only [Piece.size, Node.sizes] at *
    omega
  | cons hret _ _ ih ih' =>
    simp only [Piece.functions, Node.blockFunctions, hret, List.mem_append] at hf
    simp only [Piece.size, Node.sizes] at *
    rcases hf with hf | hf
    · have := ih hf
      omega
    · have := ih' hf
      omega

namespace Machine

variable {m : Machine} {fs : List Function} {q d : Nat}

theorem follows_of_run (hm : m.Image fs) (hq : ∀ g ∈ fs, 12 * Node.sizes g.body + 8 ≤ q)
    {p : Piece} {σ : Store} {ω ω' : World} {o : Outcome} (h : Run fs d p σ ω o ω') :
    Follows m q d p σ ω o ω' := by
  induction h with
  | var hx => exact .var hx
  | int => exact .int
  | read => exact .read hm
  | unary _ ih => exact .unary hm ih
  | binary _ _ hw ihr ihl => exact .binary hm ihr ihl hw
  | call has hf hps _ hw ihas ih =>
    have hg := List.mem_of_find?_eq_some hf
    have hname := List.find?_some hf
    exact .call hm (hq _ hg) ihas (length_of_run has) hg (by simpa using hname) hps ih hw
  | noArgs => exact .noArgs
  | arg hrest _ ihrest ih => exact .arg (length_of_run hrest) ihrest ih
  | assign _ ih => exact .assign ih
  | declare => exact .declare
  | define _ ih => exact .define ih
  | print _ ih => exact .print hm ih
  | ret _ ih => exact .ret ih
  | yes _ hw _ ihe ih => exact .yes hm ihe hw ih
  | no _ _ ihe ih => exact .no hm ihe ih
  | exit _ ihe => exact .exit hm ihe
  | again _ hw _ hloop ihe ih ihloop =>
    exact .again hm ihe hw ih ihloop (ends_of_run hloop trivial)
  | leave _ hw _ ihe ih => exact .leave hm ihe hw ih
  | function => exact .function hm
  | inner _ ih => exact .inner ih
  | skip => exact .skip
  | nil => exact .nil
  | @drop _ n _ _ _ _ _ _ _ hn _ ihn ih =>
    have hreturn : n.isReturn = false := by
      by_contra hret
      obtain ⟨v, hv⟩ := returns_of_isReturn hn (by simpa using hret)
      cases hv
    exact .drop ihn hreturn ih
  | @cons _ n _ _ _ _ _ _ _ hn hrest ihn ih =>
    have hreturn : n.isReturn = false := by
      by_contra hret
      obtain ⟨v, hv⟩ := returns_of_isReturn hn (by simpa using hret)
      cases hv
    exact .cons ihn hreturn ih (ends_of_run hrest trivial)
  | stop _ ih => exact .stop ih

theorem image_of_compile {source : String} {root : Node Nat} {l : Listing}
    (hroot : (Source.parse source 0).1 = .ok root) (hgen : generate root = .ok l)
    (hm : m.lines = l.lines) : m.Image root.functions := by
  obtain ⟨c, t, v, hl, hbody⟩ := lowers_of_generate hgen
  refine ⟨?_, ?_, fun f hf => ?_⟩
  · rw [hm]
    exact nodup_symbols_of_generate (nodup_ids_of_parse hroot) hgen
  · rw [hm, Listing.lines, List.append_assoc]
    exact List.prefix_append _ _
  · obtain ⟨r, hr, hin⟩ := routine_of_mem hl hf
    refine ⟨r, hr, hin.trans ?_⟩
    rw [hm, Listing.lines, hbody]
    exact List.infix_append_of_infix_left (List.infix_append_of_infix_right
      (List.infix_cons (List.infix_append_of_infix_left List.infix_rfl)))

/-- The lines in front of the entry. -/
def beforeEntry : List Line :=
  constants ++ [.blank] ++ storage ++ [.blank] ++ linkage ++ [.blank] ++ comparisons ++ [.blank]

/-- The entry, up to the first line that a program has of its own. -/
def opening : List Line := entry ++ [.instr (.sub (.reg .esp) (.sym .mainFrameSize))]

/-- The entry makes the frame of the top level. -/
theorem run_opening {s : State} {S : Scope} (hat : m.At s.pc opening)
    (hsize : m.symbol .mainFrameSize = S.frameSize) (hroom : 4 * S.locals + 4 ≤ s.esp.toNat)
    (ha : s.esp.toNat % 4 = 0) {ds : List String} (hS : S.Holds [] ds) :
    ∃ s', m.Steps s s' ∧ s'.pc = s.pc + opening.length ∧ Inside S .empty s' ∧
      s'.esp.toNat + 4 * S.locals + 4 = s.esp.toNat ∧ s'.world = s.world := by
  obtain ⟨hlabel, hblank, hpush, hmov, hblank', hnote, hsub, -⟩ := hat
  have hs₁ := step_label hlabel
  have hs₂ : m.step s.next = some s.next.next := by simp [step, State.next, hblank]
  obtain ⟨s₃, hs₃, hpc₃, hp₃⟩ := step_push (s := s.next.next) hpush rfl
    (by show 4 ≤ s.esp.toNat; omega) ha
  have hesp₃ : s₃.esp.toNat + 4 = s.esp.toNat := hp₃.esp
  change s₃.pc = s.pc + 1 + 1 + 1 at hpc₃
  rw [← hpc₃] at hmov hblank' hnote hsub
  have hs₄ : m.step s₃ = some { s₃ with pc := s₃.pc + 1, ebp := s₃.esp } := step_instr hmov
  have hs₅ : m.step { s₃ with pc := s₃.pc + 1, ebp := s₃.esp } =
      some { s₃ with pc := s₃.pc + 1 + 1, ebp := s₃.esp } := by simp [step, State.next, hblank']
  have hs₆ : m.step { s₃ with pc := s₃.pc + 1 + 1, ebp := s₃.esp } =
      some { s₃ with pc := s₃.pc + 1 + 1 + 1, ebp := s₃.esp } := by simp [step, State.next, hnote]
  have hs₇ : m.step { s₃ with pc := s₃.pc + 1 + 1 + 1, ebp := s₃.esp } = some { s₃ with
      pc := s₃.pc + 1 + 1 + 1 + 1, ebp := s₃.esp, esp := s₃.esp - S.frameSize, flags := none } := by
    rw [step_instr hsub, exec, operate, value, value, hsize]
    rfl
  have hlocals := Word.toNat_ofNat (k := 4 * S.locals) (by omega)
  have hesp : (s₃.esp - S.frameSize).toNat + 4 * S.locals = s₃.esp.toNat := by
    rw [Scope.frameSize, Scope.localOffset, BitVec.toNat_sub, hlocals]
    omega
  have hparams : S.params = 0 := hS.params
  have hlt := s.esp.isLt
  refine ⟨_, .cons hs₁ (.cons hs₂ (.cons hs₃ (.cons hs₄ (.cons hs₅ (.cons hs₆ (.single hs₇)))))),
    ?_, ⟨?_, ?_, ?_, ?_, ⟨[], ds, hS⟩, fun x w hx => by cases hx⟩, ?_, hp₃.world⟩
  · show s₃.pc + 1 + 1 + 1 + 1 = _
    rw [hpc₃]
    rfl
  · show (s₃.esp - S.frameSize).toNat % 4 = 0
    omega
  · show s₃.esp.toNat % 4 = 0
    omega
  · show (s₃.esp - S.frameSize).toNat + 4 * S.locals ≤ s₃.esp.toNat
    omega
  · show s₃.esp.toNat + 4 * (S.params + 2) ≤ 2 ^ 32
    omega
  · show (s₃.esp - S.frameSize).toNat + 4 * S.locals + 4 = s.esp.toNat
    omega

end Machine

open Machine in
/-- A compiled program prints what the program prints, and comes to the foot of the listing. The
stack has room for a frame and the operands of each call. -/
theorem prints_of_compile {source : String} {l : Listing} {root : Node Nat} {d : Nat}
    {input printed : List Word} (hc : compile source = .ok l)
    (hroot : (Source.parse source 0).1 = .ok root) (hrun : Prints root d input printed)
    {m : Machine} (hm : m.lines = l.lines) {s : State}
    (hpc : m.lines[s.pc]? = some (.label (.fixed .main))) (hworld : s.world = ⟨input, []⟩)
    (ha : s.esp.toNat % 4 = 0) (hroom : (d + 1) * (12 * root.size + 8) ≤ s.esp.toNat) :
    ∃ s', m.Steps s s' ∧ s'.pc = (head ++ l.body).length ∧ s'.world.printed = printed := by
  obtain ⟨root', hroot', hgen⟩ := compile_eq_ok.mp hc
  cases hroot.symm.trans hroot'
  have himage := image_of_compile hroot hgen hm
  obtain ⟨c, t, v, hl, hbody⟩ := lowers_of_generate hgen
  have hq : ∀ g ∈ root.functions, 12 * Node.sizes g.body + 8 ≤ 12 * root.size + 8 := by
    intro g hg
    have : Node.sizes g.body ≤ root.size := sizes_of_mem_functions hl hg
    omega
  have hlocals : t.scope.locals ≤ 0 + root.size := locals_of_lowers hl
  rw [Nat.add_mul] at hroom
  -- Where things are.
  have hlines : m.lines = beforeEntry ++ (opening ++ (c ++ [.equ .mainFrameSize t.scope.frameSize.toInt])) ++ foot := by
    rw [hm, Listing.lines, hbody, head, beforeEntry, opening]
    simp only [List.append_assoc, List.cons_append, List.nil_append]
  have hat := at_of_lines hlines
  have hstart : beforeEntry.length = s.pc :=
    Option.some.inj ((himage.target_eq hat.1).symm.trans (himage.target_eq hpc))
  rw [hstart] at hat
  obtain ⟨hentry, hcode⟩ := at_append.mp hat
  obtain ⟨hcode, hequ, -⟩ := at_append.mp hcode
  have hsize : m.symbol .mainFrameSize = t.scope.frameSize := by
    rw [himage.symbol_eq (n := t.scope.frameSize.toInt) (by simp [hlines]), BitVec.ofInt_toInt]
  obtain ⟨s₁, hs₁, hpc₁, hin₁, hesp₁, hω₁⟩ := run_opening hentry hsize (by omega) ha
    (holds_of_lowers hl .empty)
  rw [← hpc₁] at hcode hequ
  -- The run of the root, and the line behind its code.
  obtain ⟨σ, rest, hrun⟩ := hrun
  obtain ⟨s₂, hs₂, hpc₂, -, -, hω₂⟩ := follows_of_run himage hq hrun hl
    ⟨hcode, .refl _, hin₁, by simp only [Piece.size]; omega⟩ (hω₁.trans hworld)
  rw [← hpc₂] at hequ
  have hs₃ : m.step s₂ = some s₂.next := by simp [step, hequ]
  refine ⟨s₂.next, hs₁.trans (hs₂.trans (.single hs₃)), ?_, by rw [State.next, hω₂]⟩
  have hhead : head.length + 1 = beforeEntry.length + opening.length := rfl
  simp only [State.next, List.length_append, List.length_cons, List.length_nil, hbody]
  omega

/-! ## A recursive program -/

def factorialSource : String :=
  "function f(n)\nif n then\nreturn n * f(n - 1)\nend\nreturn 1\nend\nprint(f(read()))\n"

def factorialBody : List (Node Nat) :=
  [.branch 8 (.var 0 "n")
    [.ret 7 (.binary 6 (.arith .mul) (.var 1 "n")
      (.call 5 "f" [.binary 4 (.arith .sub) (.var 2 "n") (.int 3 1)]))] [],
   .ret 10 (.int 9 1)]

def factorialTree : Node Nat :=
  .block 15 [.function 11 "f" ["n"] factorialBody, .print 14 (.call 13 "f" [.read 12])]

theorem parse_factorialSource : (Source.parse factorialSource 0).1 = .ok factorialTree := by
  decide +kernel

theorem factorialTree_prints : Prints factorialTree 3 [2] [2] := by
  have hf : factorialTree.functions = [⟨11, "f", ["n"], factorialBody⟩] := rfl
  rw [Prints, hf]
  have zero (ω : World) : Run [⟨11, "f", ["n"], factorialBody⟩] 0 (.block factorialBody)
      (.ofParams ["n"] [0]) ω (.returns 1) ω :=
    .cons (.no (.var rfl) .nil) (.stop (.ret .int))
  -- One call more.
  have next {d : Nat} {ω : World} {n v : Word} (hn : n ≠ 0)
      (h : Run [⟨11, "f", ["n"], factorialBody⟩] d (.block factorialBody)
        (.ofParams ["n"] [n - 1]) ω (.returns v) ω) :
      Run [⟨11, "f", ["n"], factorialBody⟩] (d + 1) (.block factorialBody)
        (.ofParams ["n"] [n]) ω (.returns (n * v)) ω :=
    .stop (.yes (.var rfl) hn (.stop (.ret (.binary
      (.call (.arg .noArgs (.binary .int (.var rfl) rfl)) rfl rfl h rfl) (.var rfl) rfl))))
  have two (ω : World) := next (ω := ω) (n := 2) (by decide) (next (n := 1) (by decide) (zero ω))
  exact ⟨_, _, .inner (.cons .function (.cons (.print
    (.call (.arg .noArgs .read) rfl rfl (two _) rfl)) .nil))⟩

/-- A machine with the listing in place. -/
def Machine.ofListing (l : Listing) : Machine where
  lines := l.lines
  address := fun
    | .fixed .formatin => 4096
    | .fixed .formatout => 4100
    | .fixed .scanint => 4104
    | _ => 8192
  eax := fun _ => 0
  edx := fun _ => 0
  scratch := fun _ _ => .word 0

/-- The state at the entry, with a stack of 4096 bytes. -/
def Machine.State.start (input : List Word) : Machine.State where
  pc := beforeEntry.length
  eax := 0
  ebx := 0
  edx := 0
  esp := 4096
  ebp := 0
  flags := none
  stack := fun _ => .word 0
  data := fun _ => 0
  world := ⟨input, []⟩

theorem printed_of_factorialSource : ∃ l s', compile factorialSource = .ok l ∧
    (Machine.ofListing l).Steps (.start [2]) s' ∧ s'.pc = (head ++ l.body).length ∧
    s'.world.printed = [2] := by
  have hok : (compile factorialSource).toBool = true := by decide +kernel
  obtain ⟨l, hl⟩ := ok_of_toBool hok
  obtain ⟨s', hs', hpc, hprinted⟩ := prints_of_compile hl parse_factorialSource
    factorialTree_prints (m := .ofListing l) rfl (s := .start [2]) rfl rfl rfl (by decide)
  exact ⟨l, s', hl, hs', hpc, hprinted⟩

end Onepass
