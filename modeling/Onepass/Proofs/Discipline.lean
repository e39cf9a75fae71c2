import Onepass.Proofs.Sites

/-!
# Onepass.Proofs.Discipline

The stack discipline of compiled programs. Each line of a program's code has a level, what the
frame at hand has on top of it, and the levels agree along every way that a run can take through
the code. `Disciplined` lists what holds of the levels.

* `disciplined_of_compile` -- the code of each program that is compiled is disciplined.
-/

namespace Onepass

open Assembly Lowering Node

namespace Assembly

/-- A run may go from one line to the other. -/
inductive Edge (ls : List Line) : Nat → Nat → Prop where
  | fall {i l} : ls[i]? = some l → l.falls = true → Edge ls i (i + 1)
  | jump {i j l x} : ls[i]? = some l → l.jump? = some x → ls[j]? = some (.label x) → Edge ls i j

theorem levelAt_succ {ls : List Line} {i : Nat} {l : Line} (h : ls[i]? = some l) :
    levelAt ls (i + 1) = (levelAt ls i).bind l.follow := by
  rw [levelAt, levelAt, List.take_add_one, h, levelAfter_append]
  cases levelAfter (ls.take i) (.bare 4) with
  | none => rfl
  | some v =>
    show (l.follow v).bind (levelAfter []) = l.follow v
    cases l.follow v <;> rfl

theorem exists_levelAt {ls : List Line} {z : Level} (h : levelAfter ls (.bare 4) = some z) (i : Nat) :
    ∃ v, levelAt ls i = some v := by
  rw [← List.take_append_drop i ls, levelAfter_append] at h
  cases hv : levelAfter (ls.take i) (.bare 4) with
  | none =>
    rw [hv] at h
    cases h
  | some v => exact ⟨v, hv⟩

/-- What is found at a line, its level, and the level of the next line. -/
theorem follow_of_line {ls : List Line} {z : Level} (h : levelAfter ls (.bare 4) = some z) {i : Nat}
    {l : Line} (hl : ls[i]? = some l) :
    ∃ v w, levelAt ls i = some v ∧ levelAt ls (i + 1) = some w ∧ l.follow v = some w := by
  obtain ⟨v, hv⟩ := exists_levelAt h i
  obtain ⟨w, hw⟩ := exists_levelAt h (i + 1)
  have hnext := levelAt_succ hl
  rw [hv, hw] at hnext
  exact ⟨v, w, hv, hw, hnext.symm⟩

namespace Line

theorem pass_of_follow {l : Line} {v w : Level} (h : l.follow v = some w) : l.pass v = some w := by
  rw [follow] at h
  split at h
  · exact h
  · cases h

theorem level_of_follow {l : Line} {v w z : Level} {x : Symbol} (h : l.follow v = some w)
    (hx : l.label? = some x) (hz : x.level? = some z) : v = z := by
  rw [follow, hx, Option.bind_some, hz] at h
  split at h
  · rename_i hv
    exact Eq.symm (by simpa using hv)
  · cases h

/-- A jump leaves the stack as it is. -/
theorem after_of_jump {l : Line} {x : Symbol} (h : l.jump? = some x) (v : Level) :
    l.after v = some v := by
  cases l with
  | instr i => cases i <;> first | rfl | cases h
  | _ => cases h

end Line

/-- The level at a line that is reached by going through the lines. -/
def levelOf (ls : List Line) (i : Nat) : Level := (levelAt ls i).getD (.framed 0)

theorem levelOf_eq {ls : List Line} {i : Nat} {v : Level} (h : levelAt ls i = some v) :
    levelOf ls i = v := by
  rw [levelOf, h]
  rfl

end Assembly

/-- The discipline of the code `ls` of a program, at the levels `level`. -/
structure Disciplined (ls : List Line) (fs : List Function) (body : List (Node Nat))
    (level : Nat → Level) : Prop where
  /-- The places that `Placed` speaks of are those of the code. -/
  code : ∀ r n k, Placed body r (.node n) k →
    ∃ t t' v, evaluate n t = ⟨(ls.drop k).take n.extent, t', .ok v⟩
  /-- Levels agree along each edge. -/
  edge : ∀ i j l, ls[i]? = some l → Edge ls i j → l.after (level i) = some (level j)
  target : ∀ l ∈ ls, ∀ x, l.jump? = some x → .label x ∈ ls
  /-- The frame of the top level is empty at its first line and at the end. -/
  main : ls[0]? = some (.instr (.sub (.reg .esp) (.sym .mainFrameSize))) ∧ level 1 = .framed 0 ∧
    level ls.length = .framed 0
  /-- A routine is entered without a frame, and its frame is empty at its first line. -/
  routine : ∀ i f ps es k, Placed body .statement (.node (.function i f ps es)) k →
    ls[k + 1]? = some (.label (.routine f)) ∧ level (k + 1) = .bare 0 ∧ level (k + 5) = .framed 0
  statement : ∀ n k, Placed body .statement (.node n) k →
    level k = .framed 0 ∧ level (k + n.extent) = .framed 0
  /-- An expression ends at the depth that it began with, and never goes below it. -/
  value : ∀ e k, Placed body .value (.node e) k → ∃ d, level k = .framed d ∧
    level (k + e.extent) = .framed d ∧
    ∀ i, k ≤ i → i ≤ k + e.extent → ∃ d', d ≤ d' ∧ level i = .framed d'
  /-- An argument is pushed on top of those behind it. -/
  argument : ∀ n rest k, Placed body .value (.args (n :: rest)) k → ∃ d, level k = .framed d ∧
    level (k + argExtent rest) = .framed (d + 4 * rest.length) ∧
    ls[k + argExtent rest + n.extent]? = some (.instr (.push (.reg .eax)))
  /-- A function is called with as many arguments on the stack as it has parameters, and these are
  removed behind the call. -/
  call : ∀ i f, ls[i]? = some (.instr (.call (.routine f))) → ∃ r j as k ps d,
    Placed body r (.node (.call j f as)) k ∧ i = k + argExtent as ∧ paramsIn fs f = some ps ∧
    ps.length = as.length ∧ level k = .framed d ∧ level i = .framed (d + 4 * ps.length) ∧
    (ps.length ≠ 0 → ls[i + 1]? = some (.instr (.add (.reg .esp) (.imm (4 * ps.length))))) ∧
    level (k + extent (.call j f as)) = .framed d
  /-- A `RET` stands inside a routine, behind the lines that take the frame down. -/
  ret : ∀ i, ls[i]? = some (.instr .ret) → level i = .bare 0 ∧ ∃ m, i = m + 2 ∧
    ls[m]? = some (.instr (.mov (.reg .esp) (.reg .ebp))) ∧
    ls[m + 1]? = some (.instr (.pop .ebp)) ∧
    ∃ j f ps es k, Placed body .statement (.node (.function j f ps es)) k ∧ k + 5 ≤ m ∧
      i < k + extent (.function j f ps es)

/-- The code of a program with the functions `fs`, in its frame. -/
structure Coded (ls : List Line) (fs : List Function) (body : List (Node Nat)) : Prop where
  statements : areStatements false body = true
  site : ∃ t c t' v, Site ls fs .statement (.block body) 1 0 t c t' v
  level : levelAfter ls (.bare 4) = some (.framed 0)
  owned : AllOwned body 0 ls
  target : ∀ l ∈ ls, ∀ x, l.jump? = some x → .label x ∈ ls
  nodup : (definitions ls).Nodup

/-- The lines where a routine is left. -/
theorem levels_of_leave {ls c : List Line} {m d : Nat}
    (hs : Spot ls m d (leave.map .instr ++ c)) :
    ls[m]? = some (.instr (.mov (.reg .esp) (.reg .ebp))) ∧
      ls[m + 1]? = some (.instr (.pop .ebp)) ∧ levelOf ls (m + 2) = .bare 0 := by
  have hfront := hs.front
  refine ⟨hfront.line (i := 0) (by decide), hfront.line (i := 1) (by decide), levelOf_eq ?_⟩
  exact hfront.level (i := 2) (by decide)

namespace Coded

variable {ls : List Line} {fs : List Function} {body : List (Node Nat)} {r : Position} {p : Piece}
  {n e : Node Nat} {k i j : Nat}

theorem site_of (h : Coded ls fs body) (hp : Placed body r p k) :
    ∃ d t c t' v, Site ls fs r p k d t c t' v := by
  obtain ⟨t, c, t', v, hs⟩ := h.site
  exact site_of_placed h.statements hs hp

/-- The jump over a string leads to the second line behind it, at the same level. -/
theorem text (h : Coded ls fs body) {s : String} (hp : Placed body r (.node (.str j s)) i) :
    ls[i + 2]? = some (.label (.textEnd j)) ∧ levelOf ls i = levelOf ls (i + 2) := by
  obtain ⟨d, t, c, t', v, hl, hs, -, -⟩ := h.site_of hp
  cases hl with
  | str =>
    have hlevel : levelAt ls (i + 2) = some (.framed d) := hs.level (i := 2) (by simp [stringCode])
    rw [levelOf_eq hs.first, levelOf_eq hlevel]
    exact ⟨hs.line (i := 2) (by simp [stringCode]), rfl⟩

theorem edge (h : Coded ls fs body) {l : Line} (hl : ls[i]? = some l) (he : Edge ls i j) :
    l.after (levelOf ls i) = some (levelOf ls j) := by
  obtain ⟨v, w, hv, hw, hfollow⟩ := follow_of_line h.level hl
  rw [levelOf_eq hv]
  cases he with
  | fall hl' hfalls =>
    cases hl.symm.trans hl'
    rw [levelOf_eq hw, ← Line.pass_of_falls hfalls]
    exact Line.pass_of_follow hfollow
  | @jump _ _ x hl' hjump hlabel =>
    cases hl.symm.trans hl'
    rw [Line.after_of_jump hjump]
    obtain ⟨v', w', hv', hw', hfollow'⟩ := follow_of_line h.level hlabel
    rw [levelOf_eq hv']
    have hlab : l.label? = some x := by
      cases l with
      | instr => exact hjump
      | _ => cases hjump
    cases hx : x.level? with
    | some z => rw [Line.level_of_follow hfollow hlab hx, Line.level_of_follow hfollow' rfl hx]
    | none =>
      -- Only strings have labels inside expressions.
      have howned := h.owned.line hl
      rw [Nat.zero_add] at howned
      cases x with
      | textEnd s =>
        cases l with
        | instr instr =>
          cases instr with
          | jmp y =>
            cases hjump
            obtain ⟨r, txt, hp⟩ := howned
            obtain ⟨hlabel', hsame⟩ := h.text hp
            have hj := index_of_defines h.nodup hlabel hlabel' rfl rfl
            rw [← levelOf_eq hv, ← levelOf_eq hv', hj, hsame]
          | je | jg | jl =>
            cases hjump
            cases howned
          | _ => cases hjump
        | _ => cases hjump
      | _ => cases hx

theorem code (h : Coded ls fs body) (hp : Placed body r (.node n) k) :
    ∃ t t' v, evaluate n t = ⟨(ls.drop k).take n.extent, t', .ok v⟩ := by
  obtain ⟨d, t, c, t', v, hl, ⟨pre, post, rfl, rfl, -⟩, -, -⟩ := h.site_of hp
  refine ⟨t, t', v, ?_⟩
  rw [List.drop_left, ← length_of_node hl, List.take_left]
  exact emit_of_lowers hl

theorem statement (h : Coded ls fs body) (hp : Placed body .statement (.node n) k) :
    levelOf ls k = .framed 0 ∧ levelOf ls (k + n.extent) = .framed 0 := by
  obtain ⟨d, t, c, t', v, hl, hs, -, hd⟩ := h.site_of hp
  obtain ⟨b, hsuits⟩ := suits_of_placed h.statements hp
  cases hd rfl
  rw [← length_of_node hl]
  exact ⟨levelOf_eq hs.first, levelOf_eq (hs.last (levelAfter_of_lowers hl hsuits.suits))⟩

theorem value (h : Coded ls fs body) (hp : Placed body .value (.node e) k) :
    ∃ d, levelOf ls k = .framed d ∧ levelOf ls (k + e.extent) = .framed d ∧
      ∀ i, k ≤ i → i ≤ k + e.extent → ∃ d', d ≤ d' ∧ levelOf ls i = .framed d' := by
  obtain ⟨d, t, c, t', v, hl, hs, -, -⟩ := h.site_of hp
  have habove := above_of_lowers hl (isExpression_of_placed h.statements hp) d
  rw [← length_of_node hl]
  refine ⟨d, levelOf_eq hs.first, levelOf_eq (hs.last habove.levelAfter_eq), fun i hk hi => ?_⟩
  obtain ⟨j, rfl⟩ := Nat.exists_eq_add_of_le hk
  obtain ⟨d', hd', hlevel⟩ := habove.take j
  exact ⟨d', hd', levelOf_eq ((hs.level (by omega)).trans hlevel)⟩

theorem argument (h : Coded ls fs body) {rest : List (Node Nat)}
    (hp : Placed body .value (.args (n :: rest)) k) :
    ∃ d, levelOf ls k = .framed d ∧
      levelOf ls (k + argExtent rest) = .framed (d + 4 * rest.length) ∧
      ls[k + argExtent rest + n.extent]? = some (.instr (.push (.reg .eax))) := by
  obtain ⟨d, t, c, t', v, hl, hs, -, -⟩ := h.site_of hp
  cases hl with
  | arg hrest hl =>
    have hothers := above_of_lowers hrest (isExpression_of_placed h.statements hp.otherArgs) d
    have hfirst := above_of_lowers hl (isExpression_of_placed h.statements hp.arg)
      (d + 4 * rest.length)
    have hlen : _ = argExtent rest := length_of_lowers hrest
    have hs' := hs.behind hothers.levelAfter_eq
    have hs'' := hs'.behind hfirst.levelAfter_eq
    rw [← hlen, ← length_of_node hl]
    exact ⟨d, levelOf_eq hs.first, levelOf_eq hs'.first, hs''.line (i := 0) (Nat.succ_pos 0)⟩

theorem call (h : Coded ls fs body) {f : String}
    (hcall : ls[i]? = some (.instr (.call (.routine f)))) :
    ∃ r j as k ps d, Placed body r (.node (.call j f as)) k ∧ i = k + argExtent as ∧
      paramsIn fs f = some ps ∧ ps.length = as.length ∧ levelOf ls k = .framed d ∧
      levelOf ls i = .framed (d + 4 * ps.length) ∧
      (ps.length ≠ 0 → ls[i + 1]? = some (.instr (.add (.reg .esp) (.imm (4 * ps.length))))) ∧
      levelOf ls (k + extent (.call j f as)) = .framed d := by
  have howned := h.owned.line hcall
  rw [Nat.zero_add] at howned
  obtain ⟨r, j, as, k, hp, rfl⟩ := howned
  obtain ⟨d, t, c, t', v, hl, hs, hknown, -⟩ := h.site_of hp
  cases hl with
  | @call _ _ _ _ routine c _ v hf hn has =>
    have hargs := above_of_lowers has (isExpression_of_placed h.statements hp.args) d
    have hlen : c.length = argExtent as := length_of_lowers has
    have hs' := hs.behind hargs.levelAfter_eq
    rw [hlen] at hs'
    have hparams := hknown f routine.params (params?_mono has (Routines.params?_of_find hf))
    refine ⟨r, j, as, k, routine.params, d, hp, rfl, hparams, hn, levelOf_eq hs.first, ?_, ?_, ?_⟩
    · rw [hn]
      exact levelOf_eq hs'.first
    · rw [hn]
      intro hne
      rw [callCode, if_neg hne] at hs'
      exact hs'.line (i := 1) (Nat.lt_succ_self 1)
    · have hlast := hs'.last (above_callCode f as.length d).levelAfter_eq
      rw [List.length_map] at hlast
      rw [extent, ← Nat.add_assoc]
      exact levelOf_eq hlast

theorem ret (h : Coded ls fs body) (hret : ls[i]? = some (.instr .ret)) :
    levelOf ls i = .bare 0 ∧ ∃ m, i = m + 2 ∧
      ls[m]? = some (.instr (.mov (.reg .esp) (.reg .ebp))) ∧
      ls[m + 1]? = some (.instr (.pop .ebp)) ∧
      ∃ j f ps es k, Placed body .statement (.node (.function j f ps es)) k ∧ k + 5 ≤ m ∧
        i < k + extent (.function j f ps es) := by
  have howned := h.owned.line hret
  rw [Nat.zero_add] at howned
  obtain ⟨j, e, k, hp, rfl⟩ | ⟨j, f, ps, es, k, hp, rfl⟩ := howned
  · -- A `return`, which stands in a function.
    obtain ⟨b, hsuits⟩ := suits_of_placed h.statements hp
    obtain ⟨hb, he⟩ := Bool.and_eq_true_iff.mp hsuits.suits
    obtain ⟨j', f, ps, es, k₀, hp', hfirst, hlast⟩ := hsuits.routine hb
    obtain ⟨d, t, c, t', v, hl, hs, -, -⟩ := h.site_of hp
    cases hl with
    | ret hl =>
      have hs' := hs.behind (above_of_lowers hl he d).levelAfter_eq
      rw [length_of_node hl] at hs'
      obtain ⟨hmov, hpop, hlevel⟩ := levels_of_leave (c := []) (by rw [List.append_nil]; exact hs')
      refine ⟨hlevel, k + e.extent, rfl, hmov, hpop, j', f, ps, es, k₀, hp', by omega, ?_⟩
      have hleave : leave.length = 3 := rfl
      have henter : (enter j' f).length = 5 := rfl
      simp only [Piece.extent, extent, hleave] at hlast
      simp only [extent, henter]
      omega
  · -- The end of a function.
    obtain ⟨d, t, c, t', v, hl, hs, -, hd⟩ := h.site_of hp
    cases hd rfl
    obtain ⟨b, hsuits⟩ := suits_of_placed h.statements hp.routine
    cases hl with
    | function _ _ hl =>
      have hs' := (hs.behind rfl).behind (levelAfter_of_lowers hl hsuits.suits)
      rw [length_of_block hl] at hs'
      obtain ⟨hmov, hpop, hlevel⟩ := levels_of_leave (hs'.next rfl)
      refine ⟨hlevel, _, rfl, hmov, hpop, j, f, ps, es, k, hp, by omega, ?_⟩
      have henter : (enter j f).length = 5 := rfl
      have hfinish : (finish j 0).length = 6 := rfl
      simp only [extent, henter, hfinish]
      omega

theorem routine (h : Coded ls fs body) {f : String} {ps : List String} {es : List (Node Nat)}
    (hp : Placed body .statement (.node (.function i f ps es)) k) :
    ls[k + 1]? = some (.label (.routine f)) ∧ levelOf ls (k + 1) = .bare 0 ∧
      levelOf ls (k + 5) = .framed 0 := by
  obtain ⟨d, t, c, t', v, hl, hs, -, hd⟩ := h.site_of hp
  cases hd rfl
  cases hl with
  | function =>
    have henter : (enter i f).length = 5 := rfl
    have hfront := hs.front
    refine ⟨hfront.line (i := 1) (by omega), levelOf_eq ?_, levelOf_eq ?_⟩
    · exact hfront.level (i := 1) (by omega)
    · exact hfront.level (i := 5) (by omega)

end Coded

theorem coded_of_generate {i : Nat} {body : List (Node Nat)} {l : Listing}
    (hids : (Node.block i body).ids.Nodup) (hbody : areStatements false body = true)
    (h : generate (.block i body) = .ok l) :
    Coded l.body (blockFunctions body) body ∧
      l.body[0]? = some (.instr (.sub (.reg .esp) (.sym .mainFrameSize))) := by
  have hnodup := (nodup_symbols_of_generate hids h).of_append_left
  obtain ⟨c, t, v, hl, hcode⟩ := lowers_of_generate h
  cases hl with
  | block hl =>
    have hlevel := levelAfter_of_lowers (b := false) hl hbody
    have hspot : Spot l.body 1 0 c :=
      ⟨[.instr (.sub (.reg .esp) (.sym .mainFrameSize))], _, hcode, rfl, rfl⟩
    refine ⟨⟨hbody, ⟨_, c, t, v, hl, hspot, fun f ps hf => ?_, fun _ => rfl⟩, ?_, ?_, ?_, ?_⟩, ?_⟩
    · rw [params?_of_lowers hl] at hf
      exact hf
    · rw [hcode]
      exact levelAfter_cons rfl (levelAfter_trans hlevel rfl)
    · rw [hcode]
      exact ⟨trivial, (owned_of_lowers hbody hl .root).append ⟨trivial, trivial⟩⟩
    · have htarget := label_of_jump hl
      rw [hcode]
      simp only [List.mem_cons, List.mem_append, List.not_mem_nil, or_false]
      rintro l (rfl | hmem | rfl) x hx
      · cases hx
      · exact .inr (.inl (htarget l hmem x hx))
      · cases hx
    · rw [Listing.lines, definitions_append, definitions_append] at hnodup
      exact hnodup.of_append_left.of_append_right
    · rw [hcode]
      rfl

theorem disciplined_of_compile {source : String} {l : Listing} (h : compile source = .ok l) :
    ∃ i body, (Source.parse source 0).1 = .ok (.block i body) ∧
      Disciplined l.body (blockFunctions body) body (levelOf l.body) := by
  obtain ⟨root, hroot, hgen⟩ := compile_eq_ok.mp h
  have hids := nodup_ids_of_parse hroot
  obtain ⟨i, body, rfl, hbody⟩ := statements_of_parse hroot
  obtain ⟨hcoded, hfirst⟩ := coded_of_generate hids hbody hgen
  have hmain := levelAt_succ hfirst
  have hend : levelAt l.body l.body.length = some (.framed 0) := by
    rw [levelAt, List.take_length, hcoded.level]
  refine ⟨i, body, hroot, ?_⟩
  exact
    { code := fun r n k hp => hcoded.code hp
      edge := fun i j l hl he => hcoded.edge hl he
      target := hcoded.target
      main := ⟨hfirst, levelOf_eq hmain, levelOf_eq hend⟩
      routine := fun i f ps es k hp => hcoded.routine hp
      statement := fun n k hp => hcoded.statement hp
      value := fun e k hp => hcoded.value hp
      argument := fun n rest k hp => hcoded.argument hp
      call := fun i f hi => hcoded.call hi
      ret := fun i hi => hcoded.ret hi }

def nestedCalls : String :=
  "function f(a, b)\nreturn a + b\nend\nwhile read() do\nprint(f(1, 2 * f(3, 4)))\nend\n"

theorem disciplined_of_nestedCalls : ∃ l i body, compile nestedCalls = .ok l ∧
    (Source.parse nestedCalls 0).1 = .ok (.block i body) ∧
    Disciplined l.body (blockFunctions body) body (levelOf l.body) := by
  have hok : (compile nestedCalls).toBool = true := by decide +kernel
  obtain ⟨l, hl⟩ := ok_of_toBool hok
  obtain ⟨i, body, hbody, hdisciplined⟩ := disciplined_of_compile hl
  exact ⟨l, i, body, hl, hbody, hdisciplined⟩

end Onepass
