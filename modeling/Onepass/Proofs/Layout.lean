import Mathlib.Algebra.Group.Nat.Defs
import Onepass.Proofs.Lowers

/-!
# Onepass.Proofs.Layout

Where the variables of a frame are. `placeIn ps ds` is the layout of a frame with the parameters
`ps` and the local variables `ds`, each in the order of declaration.

* `holds_of_lowers` -- lowering a piece adds its declarations to the frame, behind those there
  are, so no variable ever moves.
-/

namespace Onepass

open Assembly Lowering

namespace Word

theorem toNat_ofNat {k : Nat} (h : k < 2 ^ 32) : (ofNat k).toNat = k := by
  rw [ofNat, BitVec.toNat_ofNat, Nat.mod_eq_of_lt h]

theorem toInt_ofNat {k : Nat} (h : k < 2 ^ 31) : (ofNat k).toInt = k := by
  have hk := toNat_ofNat (k := k) (by omega)
  rw [BitVec.toInt_eq_toNat_of_lt (by omega), hk]

end Word

/-- A parameter lies above the base of the frame. -/
theorem Scope.slt_paramOffset {n : Nat} (h : n < 2 ^ 29) : (paramOffset n).slt 0 = true := by
  have hk := Word.toNat_ofNat (k := 4 * (n + 1)) (by omega)
  simp only [paramOffset, BitVec.slt, BitVec.toInt_eq_toNat_cond, BitVec.toNat_neg, hk]
  simp
  omega

namespace Node

mutual

/-- The local variables that the lowering of a node declares in the frame it stands in. -/
def declarations : Node Nat → List String
  | .var _ _ | .int _ _ | .str _ _ | .read _ | .skip _ | .function _ _ _ _ => []
  | .declare _ x => [x]
  | .define _ x e => x :: e.declarations
  | .unary _ _ e | .assign _ _ e | .print _ e | .ret _ e => e.declarations
  | .binary _ _ l r => r.declarations ++ l.declarations
  | .call _ _ as => argDeclarations as
  | .branch _ c ys ns => c.declarations ++ (blockDeclarations ys ++ blockDeclarations ns)
  | .loop _ c body => c.declarations ++ blockDeclarations body
  | .block _ body => blockDeclarations body

def blockDeclarations : List (Node Nat) → List String
  | [] => []
  | n :: rest => n.declarations ++ if n.isReturn then [] else blockDeclarations rest

def argDeclarations : List (Node Nat) → List String
  | [] => []
  | n :: rest => argDeclarations rest ++ n.declarations

end

end Node

namespace Piece

def declarations : Piece → List String
  | .node n => n.declarations
  | .block body => Node.blockDeclarations body
  | .args as => Node.argDeclarations as

end Piece

namespace Scope

/-- The place of a name that stands for a variable. -/
def place? (s : Scope) (x : String) : Option Word := (s.slots.get? x).map (·.offset)

theorem place?_of_find {s : Scope} {x : String} {slot : Slot} (h : s.find x = .ok slot) :
    s.place? x = some slot.offset := by
  simp only [find] at h
  split at h
  · rename_i hx
    cases h
    simp [place?, hx]
  · cases h

theorem place?_insert (s : Scope) (x y : String) (slot : Slot) (n m : Nat) :
    place? ⟨s.slots.insert x slot, n, m⟩ y = if y = x then some slot.offset else s.place? y := by
  simp only [place?, Dictionary.get?_insert]
  split <;> rfl

theorem declareLocal_eq_ok {s s' : Scope} {x : String} {ty : Ty} {slot : Slot}
    (h : s.declareLocal x ty = .ok (slot, s')) :
    s.place? x = none ∧ slot.offset = localOffset (s.locals + 1) ∧
      s' = ⟨s.slots.insert x slot, s.locals + 1, s.params⟩ := by
  simp only [declareLocal] at h
  split at h
  · cases h
  · rename_i hx
    cases h
    exact ⟨by simpa [Dictionary.contains, place?] using hx, rfl, rfl⟩

theorem declareParam_eq_ok {s s' : Scope} {x : String} {slot : Slot}
    (h : s.declareParam x = .ok (slot, s')) :
    s.place? x = none ∧ slot.offset = paramOffset (s.params + 1) ∧
      s' = ⟨s.slots.insert x slot, s.locals, s.params + 1⟩ := by
  simp only [declareParam] at h
  split at h
  · cases h
  · rename_i hx
    cases h
    exact ⟨by simpa [Dictionary.contains, place?] using hx, rfl, rfl⟩

/-- A new type does not move a variable. -/
theorem retag_eq_ok {s s' : Scope} {x : String} {ty : Ty} {slot : Slot}
    (h : s.retag x ty = .ok (slot, s')) :
    s.place? x = some slot.offset ∧ (∀ y, s'.place? y = s.place? y) ∧
      s'.locals = s.locals ∧ s'.params = s.params := by
  simp only [retag] at h
  split at h
  · rename_i old hx
    cases h
    refine ⟨by simp [place?, hx], fun y => ?_, rfl, rfl⟩
    simp only [place?, Dictionary.get?_modify]
    split
    · cases s.slots.get? y <;> rfl
    · rfl
  · cases h

/-- The scope has the parameters `ps` and the local variables `ds`, in the order of
declaration. -/
structure Holds (s : Scope) (ps ds : List String) : Prop where
  params : s.params = ps.length
  locals : s.locals = ds.length
  param : ∀ i x, ps[i]? = some x → s.place? x = some (paramOffset (i + 1))
  var : ∀ i x, ds[i]? = some x → s.place? x = some (localOffset (i + 1))
  known : ∀ x w, s.place? x = some w → x ∈ ps ++ ds

namespace Holds

variable {s s' : Scope} {ps ds : List String} {x : String} {slot : Slot}

theorem empty : Scope.empty.Holds [] [] :=
  ⟨rfl, rfl, by simp, by simp, by simp [place?, Scope.empty]⟩

/-- Behind a list with one more name: an old place, or the new one. -/
theorem getElem?_snoc {xs : List String} {x y : String} {i : Nat}
    (h : (xs ++ [x])[i]? = some y) : xs[i]? = some y ∨ (i = xs.length ∧ y = x) := by
  rw [List.getElem?_append] at h
  split at h
  · exact .inl h
  · right
    rw [List.getElem?_singleton] at h
    split at h
    · cases h
      exact ⟨by omega, rfl⟩
    · cases h

theorem declareLocal (hs : s.Holds ps ds) {ty : Ty} (h : s.declareLocal x ty = .ok (slot, s')) :
    s'.Holds ps (ds ++ [x]) := by
  obtain ⟨hnew, hslot, rfl⟩ := declareLocal_eq_ok h
  have hold : ∀ y w, s.place? y = some w → y ≠ x := by
    rintro y w hy rfl
    rw [hnew] at hy
    cases hy
  refine ⟨hs.params, by simp [hs.locals], ?_, ?_, ?_⟩
  · intro i y hy
    have hp := hs.param i y hy
    rw [place?_insert, if_neg (hold y _ hp), hp]
  · intro i y hy
    rw [place?_insert]
    rcases getElem?_snoc hy with hy | ⟨rfl, rfl⟩
    · have hp := hs.var i y hy
      rw [if_neg (hold y _ hp), hp]
    · rw [if_pos rfl, hslot, hs.locals]
  · intro y w hy
    rw [place?_insert] at hy
    split at hy
    · rename_i hyx
      simp [hyx]
    · have := hs.known y w hy
      rw [List.mem_append] at this
      rcases this with h | h <;> simp [h]

theorem declareParam (hs : s.Holds ps ds) (h : s.declareParam x = .ok (slot, s')) :
    s'.Holds (ps ++ [x]) ds := by
  obtain ⟨hnew, hslot, rfl⟩ := declareParam_eq_ok h
  have hold : ∀ y w, s.place? y = some w → y ≠ x := by
    rintro y w hy rfl
    rw [hnew] at hy
    cases hy
  refine ⟨by simp [hs.params], hs.locals, ?_, ?_, ?_⟩
  · intro i y hy
    rw [place?_insert]
    rcases getElem?_snoc hy with hy | ⟨rfl, rfl⟩
    · have hp := hs.param i y hy
      rw [if_neg (hold y _ hp), hp]
    · rw [if_pos rfl, hslot, hs.params]
  · intro i y hy
    have hp := hs.var i y hy
    rw [place?_insert, if_neg (hold y _ hp), hp]
  · intro y w hy
    rw [place?_insert] at hy
    split at hy
    · rename_i hyx
      simp [hyx]
    · have := hs.known y w hy
      rw [List.mem_append] at this
      rcases this with h | h <;> simp [h]

theorem declareParams (hs : s.Holds ps []) {qs : List String}
    (h : s.declareParams qs = .ok s') : s'.Holds (ps ++ qs) [] := by
  induction qs generalizing s ps with
  | nil =>
    cases h
    simpa using hs
  | cons q qs ih =>
    simp only [Scope.declareParams] at h
    cases hq : s.declareParam q with
    | error e =>
      rw [hq] at h
      cases h
    | ok p =>
      obtain ⟨slot, s₁⟩ := p
      rw [hq] at h
      have := ih (hs.declareParam hq) h
      rwa [List.append_assoc] at this

theorem retag (hs : s.Holds ps ds) {ty : Ty} (h : s.retag x ty = .ok (slot, s')) :
    s'.Holds ps ds := by
  obtain ⟨-, hplace, hl, hp⟩ := retag_eq_ok h
  exact ⟨hp.trans hs.params, hl.trans hs.locals, by simpa only [hplace] using hs.param,
    by simpa only [hplace] using hs.var, by simpa only [hplace] using hs.known⟩

end Holds
end Scope

/-- A piece adds the variables that it declares, behind those there are. -/
theorem holds_of_lowers {p t c t' v} (h : Lowers p t c t' v) {ps ds : List String}
    (ht : t.scope.Holds ps ds) : t'.scope.Holds ps (ds ++ p.declarations) := by
  induction h generalizing ps ds with
  | var _ | int | str | read | skip | nil | noArgs =>
    simpa [Piece.declarations, Node.declarations, Node.blockDeclarations, Node.argDeclarations]
      using ht
  | unary _ _ ih | call _ _ _ ih | print _ ih | ret _ ih | block _ ih => exact ih ht
  | assign _ hs ih => exact (ih ht).retag hs
  | declare hs => exact ht.declareLocal hs
  | define hs _ hs' ih =>
    have := (ih (ht.declareLocal hs)).retag hs'
    rwa [List.append_assoc] at this
  | binary _ _ _ ihr ihl =>
    have := ihl (ihr ht)
    rwa [List.append_assoc] at this
  | branch _ _ _ ihc ihy ihn =>
    have := ihn (ihy (ihc ht))
    rwa [List.append_assoc, List.append_assoc] at this
  | loop _ _ ihc ihb =>
    have := ihb (ihc ht)
    rwa [List.append_assoc] at this
  | function => simpa [Piece.declarations, Node.declarations] using ht
  | last hr _ ih => simpa [Piece.declarations, Node.blockDeclarations, hr] using ih ht
  | cons hr _ _ ihn ihrest =>
    simpa [Piece.declarations, Node.blockDeclarations, hr] using ihrest (ihn ht)
  | arg _ _ ihrest ihn =>
    have := ihn (ihrest ht)
    rwa [List.append_assoc] at this

/-- Every variable of the first scope has the same place in the second. -/
def Scope.Within (s s' : Scope) : Prop := ∀ x w, s.place? x = some w → s'.place? x = some w

namespace Scope.Within

variable {s s' s'' : Scope} {x : String} {ty : Ty} {slot : Slot}

theorem refl (s : Scope) : s.Within s := fun _ _ h => h

theorem trans (h : s.Within s') (h' : s'.Within s'') : s.Within s'' :=
  fun x w hx => h' x w (h x w hx)

theorem declareLocal (h : s.declareLocal x ty = .ok (slot, s')) : s.Within s' := by
  obtain ⟨hnew, -, rfl⟩ := declareLocal_eq_ok h
  intro y w hy
  have hyx : y ≠ x := by
    rintro rfl
    rw [hnew] at hy
    cases hy
  rw [place?_insert, if_neg hyx, hy]

theorem retag (h : s.retag x ty = .ok (slot, s')) : s.Within s' := by
  intro y w hy
  rw [(retag_eq_ok h).2.1, hy]

end Scope.Within

/-- Lowering moves no variable. -/
theorem within_of_lowers {p t c t' v} (h : Lowers p t c t' v) : t.scope.Within t'.scope := by
  induction h with
  | var _ | int | str | read | skip | nil | noArgs | function => exact .refl _
  | unary _ _ ih | call _ _ _ ih | print _ ih | ret _ ih | block _ ih | last _ _ ih => exact ih
  | assign _ hs ih => exact ih.trans (.retag hs)
  | declare hs => exact .declareLocal hs
  | define hs _ hs' ih => exact ((Scope.Within.declareLocal hs).trans ih).trans (.retag hs')
  | binary _ _ _ ihr ihl => exact ihr.trans ihl
  | branch _ _ _ ihc ihy ihn => exact (ihc.trans ihy).trans ihn
  | loop _ _ ihc ihb => exact ihc.trans ihb
  | cons _ _ _ ihn ihrest => exact ihn.trans ihrest
  | arg _ _ ihrest ihn => exact ihrest.trans ihn

end Onepass
