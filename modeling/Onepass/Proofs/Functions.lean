import Onepass.Proofs.Lowers

/-!
# Onepass.Proofs.Functions

The functions that a program declares, in the order in which they are lowered. What stands
behind a block's `return` is not lowered, so it declares none.

* `params?_of_lowers` -- behind a piece, the functions known are those known before and those
  that it declares.
* `fresh_of_lowers`    -- no name is declared twice.
* `routine_of_mem`     -- the routine of each of them is a part of the code.
-/

namespace Onepass

open Assembly Lowering

/-- A function as a program declares it. -/
structure Function where
  id : Nat
  name : String
  params : List String
  body : List (Node Nat)

namespace Node

mutual

def functions : Node Nat → List Function
  | .var _ _ | .int _ _ | .str _ _ | .read _ | .declare _ _ | .skip _ => []
  | .unary _ _ e | .assign _ _ e | .define _ _ e | .print _ e | .ret _ e => e.functions
  | .binary _ _ l r => r.functions ++ l.functions
  | .call _ _ as => argFunctions as
  | .branch _ c ys ns => c.functions ++ (blockFunctions ys ++ blockFunctions ns)
  | .loop _ c body => c.functions ++ blockFunctions body
  | .function i f ps body => ⟨i, f, ps, body⟩ :: blockFunctions body
  | .block _ body => blockFunctions body

def blockFunctions : List (Node Nat) → List Function
  | [] => []
  | n :: rest => n.functions ++ if n.isReturn then [] else blockFunctions rest

def argFunctions : List (Node Nat) → List Function
  | [] => []
  | n :: rest => argFunctions rest ++ n.functions

end

end Node

namespace Piece

def functions : Piece → List Function
  | .node n => n.functions
  | .block body => Node.blockFunctions body
  | .args as => Node.argFunctions as

end Piece

/-- The parameters of the first function of a name. -/
def paramsIn (fs : List Function) (name : String) : Option (List String) :=
  (fs.find? (·.name = name)).map (·.params)

theorem paramsIn_append (fs gs : List Function) (name : String) :
    paramsIn (fs ++ gs) name = (paramsIn fs name).or (paramsIn gs name) := by
  simp only [paramsIn, List.find?_append]
  cases fs.find? (·.name = name) <;> rfl

theorem paramsIn_eq_none {fs : List Function} {name : String} :
    paramsIn fs name = none ↔ ∀ f ∈ fs, f.name ≠ name := by
  simp [paramsIn]

theorem exists_of_paramsIn {fs : List Function} {name : String} {ps : List String}
    (h : paramsIn fs name = some ps) : ∃ f ∈ fs, f.name = name ∧ f.params = ps := by
  simp only [paramsIn, Option.map_eq_some_iff] at h
  obtain ⟨f, hf, rfl⟩ := h
  exact ⟨f, List.mem_of_find?_eq_some hf, by simpa using List.find?_some hf, rfl⟩

namespace Routines

/-- The parameters of a known function. -/
def params? (rs : Routines) (name : String) : Option (List String) := (rs.get? name).map (·.params)

theorem params?_of_find {rs : Routines} {name : String} {r : Routine} (h : rs.find name = .ok r) :
    rs.params? name = some r.params := by
  simp only [find] at h
  split at h
  · rename_i hr
    cases h
    simp [params?, hr]
  · cases h

theorem params?_declare {rs rs' : Routines} {name : String} {ps : List String}
    (h : rs.declare name ps = .ok rs') (x : String) :
    rs.params? name = none ∧ rs'.params? x = if x = name then some ps else rs.params? x := by
  simp only [declare] at h
  split at h
  · cases h
  · rename_i hn
    cases h
    constructor
    · simpa [Dictionary.contains, params?] using hn
    · simp only [params?, Dictionary.get?_insert]
      split <;> rfl

theorem params?_noted (rs : Routines) (name : String) (ty : Ty) (x : String) :
    (rs.noted name ty).params? x = rs.params? x := by
  simp only [noted]
  split
  · rfl
  · simp only [params?, returning, Dictionary.get?_modify]
    split
    · cases rs.get? x <;> rfl
    · rfl

end Routines

theorem params?_of_lowers {p t c t' v} (h : Lowers p t c t' v) (name : String) :
    t'.routines.params? name = (t.routines.params? name).or (paramsIn p.functions name) := by
  induction h with
  | var _ | int | str | read | declare _ | skip | nil | noArgs =>
    simp [Piece.functions, Node.functions, Node.blockFunctions, Node.argFunctions, paramsIn]
  | unary _ _ ih | call _ _ _ ih | assign _ _ ih | print _ ih | ret _ ih | block _ ih
  | define _ _ _ ih => exact ih
  | binary _ _ _ ihr ihl =>
    simp only [Piece.functions, Node.functions, paramsIn_append] at *
    rw [ihl, ihr, Option.or_assoc]
  | branch _ _ _ ihc ihy ihn =>
    simp only [Piece.functions, Node.functions, paramsIn_append] at *
    rw [ihn, ihy, ihc, Option.or_assoc, Option.or_assoc]
  | loop _ _ ihc ihb =>
    simp only [Piece.functions, Node.functions, paramsIn_append] at *
    rw [ihb, ihc, Option.or_assoc]
  | @function i f ps body t rs s c u v hd _ _ ih =>
    obtain ⟨hnew, hrs⟩ := Routines.params?_declare hd name
    simp only [Routines.params?_noted, ih, hrs, Piece.functions, Node.functions]
    by_cases hx : name = f
    · subst hx
      simp [hnew, paramsIn]
    · simp [hx, Ne.symm hx, paramsIn]
  | last hr _ ih =>
    simp only [Piece.functions, Node.blockFunctions, hr, if_true, List.append_nil] at *
    exact ih
  | cons hr _ _ ihn ihrest =>
    simp only [Piece.functions, Node.blockFunctions, hr, paramsIn_append] at *
    simp [ihrest, ihn, Option.or_assoc]
  | arg _ _ ihrest ihn =>
    simp only [Piece.functions, Node.argFunctions, paramsIn_append] at *
    rw [ihn, ihrest, Option.or_assoc]

/-- Functions of different names, none of which is known yet. -/
structure Fresh (rs : Routines) (fs : List Function) : Prop where
  nodup : (fs.map (·.name)).Nodup
  unknown : ∀ f ∈ fs, rs.params? f.name = none

theorem Fresh.nil (rs : Routines) : Fresh rs [] := ⟨List.nodup_nil, by simp⟩

/-- The second functions are declared when the first ones are known. -/
theorem Fresh.append {rs rs' : Routines} {fs gs : List Function} (hf : Fresh rs fs)
    (hg : Fresh rs' gs) (h : ∀ x, rs'.params? x = (rs.params? x).or (paramsIn fs x)) :
    Fresh rs (fs ++ gs) := by
  have hnew : ∀ g ∈ gs, rs.params? g.name = none ∧ ∀ f ∈ fs, f.name ≠ g.name := by
    intro g hgs
    have := hg.unknown g hgs
    rw [h, Option.or_eq_none_iff, paramsIn_eq_none] at this
    exact this
  constructor
  · rw [List.map_append, List.nodup_append]
    refine ⟨hf.nodup, hg.nodup, ?_⟩
    intro x hx y hy
    obtain ⟨f, hfs, rfl⟩ := List.mem_map.mp hx
    obtain ⟨g, hgs, rfl⟩ := List.mem_map.mp hy
    exact (hnew g hgs).2 f hfs
  · intro f hm
    rcases List.mem_append.mp hm with hfs | hgs
    · exact hf.unknown f hfs
    · exact (hnew f hgs).1

theorem fresh_of_lowers {p t c t' v} (h : Lowers p t c t' v) : Fresh t.routines p.functions := by
  induction h with
  | var _ | int | str | read | declare _ | skip | nil | noArgs => exact .nil _
  | unary _ _ ih | call _ _ _ ih | assign _ _ ih | print _ ih | ret _ ih | block _ ih
  | define _ _ _ ih => exact ih
  | binary hr _ _ ihr ihl => exact ihr.append ihl (params?_of_lowers hr)
  | branch hc hy _ ihc ihy ihn =>
    exact ihc.append (ihy.append ihn (params?_of_lowers hy)) (params?_of_lowers hc)
  | loop hc _ ihc ihb => exact ihc.append ihb (params?_of_lowers hc)
  | @function i f ps body t rs s c u v hd _ _ ih =>
    have hrs := fun x => (Routines.params?_declare hd x).2
    have hone : Fresh t.routines [⟨i, f, ps, body⟩] :=
      ⟨by simp, by simpa using (Routines.params?_declare hd f).1⟩
    refine hone.append ih fun x => ?_
    rw [hrs]
    by_cases hx : x = f
    · subst hx
      simp [(Routines.params?_declare hd x).1, paramsIn]
    · simp [hx, Ne.symm hx, paramsIn]
  | last hr _ ih =>
    simpa [Piece.functions, Node.blockFunctions, hr] using ih
  | cons hr hn _ ihn ihrest =>
    simpa [Piece.functions, Node.blockFunctions, hr] using
      ihn.append ihrest (params?_of_lowers hn)
  | arg hrest _ ihrest ihn => exact ihrest.append ihn (params?_of_lowers hrest)

/-- The functions known before a piece are known behind it. -/
theorem params?_mono {p t c t' v} (h : Lowers p t c t' v) {f : String} {ps : List String}
    (hf : t.routines.params? f = some ps) : t'.routines.params? f = some ps := by
  rw [params?_of_lowers h, hf]
  rfl

open List (infix_append_of_infix_left infix_append_of_infix_right infix_cons)

/-- The lines `c` are the routine of a function, lowered when some functions were known. -/
def Function.LowersTo (f : Function) (c : List Line) : Prop :=
  ∃ s rs body t v, Scope.empty.declareParams f.params = .ok s ∧
    Lowers (.block f.body) ⟨s, rs⟩ body t v ∧
    c = enter f.id f.name ++ (body ++ finish f.id t.scope.frameSize)

theorem routine_of_mem {p t c t' v} (h : Lowers p t c t' v) {f : Function} (hf : f ∈ p.functions) :
    ∃ r, f.LowersTo r ∧ r <:+: c := by
  induction h with
  | var _ | int | str | read | declare _ | skip | nil | noArgs =>
    simp [Piece.functions, Node.functions, Node.blockFunctions, Node.argFunctions] at hf
  | unary _ _ ih | call _ _ _ ih | assign _ _ ih | print _ ih | ret _ ih =>
    obtain ⟨r, hr, hin⟩ := ih hf
    exact ⟨r, hr, infix_append_of_infix_left hin⟩
  | block _ ih => exact ih hf
  | define _ _ _ ih =>
    obtain ⟨r, hr, hin⟩ := ih hf
    exact ⟨r, hr, infix_cons (infix_append_of_infix_left hin)⟩
  | binary _ _ _ ihr ihl =>
    rcases List.mem_append.mp hf with hf | hf
    · obtain ⟨r, hr, hin⟩ := ihr hf
      exact ⟨r, hr, infix_append_of_infix_left hin⟩
    · obtain ⟨r, hr, hin⟩ := ihl hf
      refine ⟨r, hr, ?_⟩
      exact infix_append_of_infix_right (infix_cons (infix_append_of_infix_left hin))
  | branch _ _ _ ihc ihy ihn =>
    rcases List.mem_append.mp hf with hf | hf
    · obtain ⟨r, hr, hin⟩ := ihc hf
      exact ⟨r, hr, infix_append_of_infix_left hin⟩
    rcases List.mem_append.mp hf with hf | hf
    · obtain ⟨r, hr, hin⟩ := ihy hf
      refine ⟨r, hr, ?_⟩
      exact infix_append_of_infix_right
        (infix_append_of_infix_right (infix_append_of_infix_left hin))
    · obtain ⟨r, hr, hin⟩ := ihn hf
      refine ⟨r, hr, ?_⟩
      exact infix_append_of_infix_right (infix_append_of_infix_right
        (infix_append_of_infix_right (infix_cons (infix_cons (infix_append_of_infix_left hin)))))
  | loop _ _ ihc ihb =>
    rcases List.mem_append.mp hf with hf | hf
    · obtain ⟨r, hr, hin⟩ := ihc hf
      exact ⟨r, hr, infix_cons (infix_append_of_infix_left hin)⟩
    · obtain ⟨r, hr, hin⟩ := ihb hf
      refine ⟨r, hr, ?_⟩
      exact infix_cons (infix_append_of_infix_right
        (infix_append_of_infix_right (infix_append_of_infix_left hin)))
  | function _ hs hb ih =>
    rcases List.mem_cons.mp hf with rfl | hf
    · exact ⟨_, ⟨_, _, _, _, _, hs, hb, rfl⟩, List.infix_rfl⟩
    · obtain ⟨r, hr, hin⟩ := ih hf
      exact ⟨r, hr, infix_append_of_infix_right (infix_append_of_infix_left hin)⟩
  | last hr _ ih => exact ih (by simpa [Piece.functions, Node.blockFunctions, hr] using hf)
  | cons hr _ _ ihn ihrest =>
    simp only [Piece.functions, Node.blockFunctions, hr, List.mem_append] at hf
    rcases hf with hf | hf
    · obtain ⟨r, hr, hin⟩ := ihn hf
      exact ⟨r, hr, infix_append_of_infix_left hin⟩
    · obtain ⟨r, hr, hin⟩ := ihrest hf
      exact ⟨r, hr, infix_append_of_infix_right hin⟩
  | arg _ _ ihrest ihn =>
    rcases List.mem_append.mp hf with hf | hf
    · obtain ⟨r, hr, hin⟩ := ihrest hf
      exact ⟨r, hr, infix_append_of_infix_left hin⟩
    · obtain ⟨r, hr, hin⟩ := ihn hf
      exact ⟨r, hr, infix_append_of_infix_right (infix_append_of_infix_left hin)⟩

end Onepass
