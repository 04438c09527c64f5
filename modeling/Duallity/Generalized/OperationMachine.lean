import Duallity.Generalized.Construction
import Duallity.Lib.Alignment
import Mathlib.Algebra.Group.Prod

/-! The abstract product of dictionary paths and query positions under an operation set. An operation consumes a segment
    of both; the labels of its segments are read and written one after the other. The machine accepts the query with the
    words that align with it by operations of the original set, within the scaled budget. -/

namespace Duallity

/-- The path that has been spelled, the query characters that have been consumed, and the scaled cost. -/
structure ProductPoint where
  spelled : List Char
  consumed : Nat
  cost : Nat
deriving DecidableEq

/-- An operation applied at a point. -/
structure OperationArc where
  input : List Char
  output : List Char
  weight : ℚ
  target : ProductPoint

/-- A product point, or the rest of the labels of an operation. -/
inductive Point
  | product (point : ProductPoint)
  | emit (input output : List Char) (position : Nat) (target : ProductPoint)

/-- Where the labels of a position lead: to the next position, if there is one. -/
def Point.after (input output : List Char) (position : Nat) (target : ProductPoint) : Point :=
  if max input.length output.length ≤ position + 1 then .product target else .emit input output (position + 1) target

/-- One operation of a set consumes the dictionary segment `u` and the query segment `v`, at its weight and its scaled
    weight. -/
def Consumes {R : Type} (lib : OperationLibrary R) (scale : CostScale) (operations : OperationSet R) (u v : List Char)
    (c : ℚ × Nat) : Prop :=
  ∃ o ∈ operations, u.length = o.consumeX ∧ v.length = o.consumeY ∧
    GeneralizedOps.operationApplies lib o u (GeneralizedOps.asBytes u) v (GeneralizedOps.asBytes v) = true ∧
    c.1 = o.weight ∧ scale.toScaled o.weight = some c.2

namespace OperationMachine
open GeneralizedOps Alignment
variable {N R : Type} (D : Dictionary N Char) (src : GeneralizedWfst N R)

/-- What one prepared operation contributes to a product point over the node `n`. -/
def appliedArcs (n : N) (p : ProductPoint) (prepared : PreparedOperation) : List OperationArc :=
  if src.maxCost - p.cost < prepared.scaledWeight ∨ src.query.length < p.consumed + prepared.consumeY then []
  else
    let segment := (src.query.drop p.consumed).take prepared.consumeY
    match src.operations[prepared.index]? with
    | none => []
    | some operation =>
      ((D.labelledPaths n prepared.consumeX).filter fun path =>
        operationApplies src.library operation path (asBytes path) segment (asBytes segment)).map fun path =>
          ⟨segment, path, prepared.weight,
            ⟨p.spelled ++ path, p.consumed + prepared.consumeY, p.cost + prepared.scaledWeight⟩⟩

/-- The arcs of a product point over the node `n`, in the order of the prepared operations. -/
def operationArcs (n : N) (p : ProductPoint) : List OperationArc := src.preparedOperations.flatMap (appliedArcs D src n p)

inductive Step : Point → Option Char → Option Char → ℚ → Point → Prop
  | operation {p : ProductPoint} {n : N} {arc : OperationArc} : D.node? p.spelled = some n →
      arc ∈ operationArcs D src n p →
      Step (.product p) arc.input.head? arc.output.head? arc.weight (.after arc.input arc.output 0 arc.target)
  | emission {input output : List Char} {position : Nat} {target : ProductPoint} :
      Step (.emit input output position target) input[position]? output[position]? 0 (.after input output position target)

inductive Final : Point → ℚ → Prop
  | accept {p : ProductPoint} : p.consumed = src.query.length → p.cost ≤ src.maxCost → p.spelled ∈ D.words →
      Final (.product p) 0

def machine : Transducer Point Char Char ℚ where
  step := Step D src
  final := Final D src

def start : ProductPoint := ⟨[], 0, 0⟩

variable {D} {src}

/-! ### Operations as arcs -/

section Arcs
variable {scale : CostScale} {operations : OperationSet R} {n : N} {p : ProductPoint}

theorem mem_operationArcs (hsrc : src.PreparedFrom scale operations) (hlabels : D.DistinctLabels)
    {arc : OperationArc} : arc ∈ operationArcs D src n p → ∃ c, Consumes src.library scale operations arc.output arc.input c ∧
      arc.weight = c.1 ∧ (∃ m, D.walk? n arc.output = some m) ∧
      p.consumed + arc.input.length ≤ src.query.length ∧
      arc.input = (src.query.drop p.consumed).take arc.input.length ∧
      arc.target = ⟨p.spelled ++ arc.output, p.consumed + arc.input.length, p.cost + c.2⟩ := by
  intro h
  obtain ⟨prepared, hprepared, h⟩ := List.mem_flatMap.mp h
  unfold appliedArcs at h
  split at h
  · cases h
  · rename_i hfits
    obtain ⟨o, ho, hindex, hx, hy, hw, hs⟩ := hsrc.original prepared hprepared
    simp only [hindex, List.mem_map, List.mem_filter] at h
    obtain ⟨path, ⟨hpath, happlies⟩, rfl⟩ := h
    obtain ⟨hlength, hwalk⟩ := hlabels.mem_labelledPaths.mp hpath
    have hle : p.consumed + prepared.consumeY ≤ src.query.length := Nat.le_of_not_lt fun h => hfits (Or.inr h)
    have hsegment : ((src.query.drop p.consumed).take prepared.consumeY).length = prepared.consumeY := by
      rw [List.length_take, List.length_drop]
      omega
    refine ⟨(prepared.weight, prepared.scaledWeight), ⟨o, ho, hlength.trans hx, hsegment.trans hy, happlies, hw, hs⟩, rfl,
      hwalk, ?_, ?_, ?_⟩
    · rw [hsegment]
      exact hle
    · rw [hsegment]
    · rw [hsegment]

theorem exists_operationArc (hsrc : src.PreparedFrom scale operations) (hlabels : D.DistinctLabels)
    {u v : List Char} {c : ℚ × Nat} (hop : Consumes src.library scale operations u v c)
    (hcost : p.cost + c.2 ≤ src.maxCost) (hwalk : ∃ m, D.walk? n u = some m)
    (hle : p.consumed + v.length ≤ src.query.length) (hv : v = (src.query.drop p.consumed).take v.length) :
    (⟨v, u, c.1, ⟨p.spelled ++ u, p.consumed + v.length, p.cost + c.2⟩⟩ : OperationArc) ∈ operationArcs D src n p := by
  obtain ⟨o, ho, hx, hy, happlies, hw, hs⟩ := hop
  obtain ⟨prepared, hprepared, hindex, hx', hy', hw', hs'⟩ := hsrc.prepared o ho c.2 ((Nat.le_add_left _ _).trans hcost) hs
  have hy'' : v.length = prepared.consumeY := hy.trans hy'.symm
  refine List.mem_flatMap.mpr ⟨prepared, hprepared, ?_⟩
  unfold appliedArcs
  rw [if_neg (by omega), ← hy'', ← hv]
  simp only [hindex, List.mem_map, List.mem_filter]
  refine ⟨u, ⟨hlabels.mem_labelledPaths.mpr ⟨hx.trans hx'.symm, hwalk⟩, happlies⟩, ?_⟩
  rw [hw, hw', hs', hy'']

end Arcs

/-! ### Paths -/

section Paths
variable {input output : List Char} {position : Nat} {target : ProductPoint}

/-- From a position on, the rest of the labels is read and written. -/
theorem path_after : (machine D src).Path (.after input output position target) (input.drop (position + 1))
    (output.drop (position + 1)) 0 (.product target) := by
  generalize hn : max input.length output.length - position = n
  induction n generalizing position with
  | zero =>
    rw [Point.after, if_pos (by omega), List.drop_eq_nil_of_le (by omega), List.drop_eq_nil_of_le (by omega)]
    exact .nil _
  | succ n ih =>
    by_cases hle : max input.length output.length ≤ position + 1
    · rw [Point.after, if_pos hle, List.drop_eq_nil_of_le (by omega), List.drop_eq_nil_of_le (by omega)]
      exact .nil _
    · have hrest : (machine D src).Path (.after input output (position + 1) target) _ _ 0 (.product target) := ih (by omega)
      have hpath := Transducer.Path.cons (T := machine D src) Step.emission hrest
      rw [Point.after, if_neg hle]
      simpa only [← List.drop_eq_getElem?_toList_append, add_zero] using hpath

/-- From the first arc on. -/
theorem path_operation {p : ProductPoint} {n : N} {arc : OperationArc} (hn : D.node? p.spelled = some n)
    (harc : arc ∈ operationArcs D src n p) :
    (machine D src).Path (.product p) arc.input arc.output arc.weight (.product arc.target) := by
  have hrest : (machine D src).Path (.after arc.input arc.output 0 arc.target) _ _ 0 (.product arc.target) := path_after
  have hpath := Transducer.Path.cons (T := machine D src) (Step.operation hn harc) hrest
  have hlabels : ∀ labels : List Char, labels.head?.toList ++ labels.drop (0 + 1) = labels := fun labels => by cases labels <;> rfl
  rwa [hlabels, hlabels, add_zero] at hpath

end Paths

/-! ### The relation -/

section Relation
variable {scale : CostScale} {operations : OperationSet R} {x y : List Char} {c : ℚ}

/-- What the operations that led to a point have consumed, at the weight `c` and the cost of the point. -/
def AlignedTo (src : GeneralizedWfst N R) (scale : CostScale) (operations : OperationSet R) (c : ℚ) (p : ProductPoint) : Prop :=
  p.consumed ≤ src.query.length ∧
    Align (Consumes src.library scale operations) p.spelled (src.query.take p.consumed) (c, p.cost)

/-- What a path from the start has read and written when it is at a point. -/
def Covers (src : GeneralizedWfst N R) (scale : CostScale) (operations : OperationSet R) (x y : List Char) (c : ℚ) : Point → Prop
  | .product p => AlignedTo src scale operations c p ∧ x = src.query.take p.consumed ∧ y = p.spelled
  | .emit input output position target => AlignedTo src scale operations c target ∧ ∃ v u,
      src.query.take target.consumed = v ++ input ∧ target.spelled = u ++ output ∧
      x = v ++ input.take position ∧ y = u ++ output.take position

theorem covers_after {input output v u : List Char} {position : Nat} {target : ProductPoint}
    (haligned : AlignedTo src scale operations c target) (hinput : src.query.take target.consumed = v ++ input)
    (houtput : target.spelled = u ++ output) :
    Covers src scale operations (v ++ input.take (position + 1)) (u ++ output.take (position + 1)) c
      (.after input output position target) := by
  unfold Point.after
  split
  · rename_i hle
    refine ⟨haligned, ?_, ?_⟩
    · rw [List.take_of_length_le (by omega), hinput]
    · rw [List.take_of_length_le (by omega), houtput]
  · exact ⟨haligned, v, u, hinput, houtput, rfl, rfl⟩

theorem Covers.step (hsrc : src.PreparedFrom scale operations) (hlabels : D.DistinctLabels) {point point' : Point}
    {a b : Option Char} {w : ℚ} (h : Covers src scale operations x y c point) (hstep : Step D src point a b w point') :
    Covers src scale operations (x ++ a.toList) (y ++ b.toList) (c + w) point' := by
  cases hstep with
  | @operation p n arc hn harc =>
    obtain ⟨⟨hle, halign⟩, rfl, rfl⟩ := h
    obtain ⟨d, hop, hweight, -, hfits, hinput, htarget⟩ := mem_operationArcs hsrc hlabels harc
    have htake : src.query.take arc.target.consumed = src.query.take p.consumed ++ arc.input := by
      rw [htarget, List.take_add, ← hinput]
    have hspelled : arc.target.spelled = p.spelled ++ arc.output := by rw [htarget]
    have haligned : AlignedTo src scale operations (c + arc.weight) arc.target := by
      refine ⟨by rwa [htarget], ?_⟩
      have hcost : (c + arc.weight, arc.target.cost) = (c, p.cost) + d := by rw [htarget, hweight]; rfl
      rw [htake, hspelled, hcost]
      exact halign.snoc hop
    have hhead : ∀ labels : List Char, labels.head?.toList = labels.take (0 + 1) := fun labels => by cases labels <;> rfl
    rw [hhead, hhead]
    exact covers_after haligned htake hspelled
  | @emission input output position target =>
    obtain ⟨haligned, v, u, hinput, houtput, rfl, rfl⟩ := h
    rw [add_zero, List.append_assoc, List.append_assoc, ← List.take_add_one, ← List.take_add_one]
    exact covers_after haligned hinput houtput

/-- An alignment that fits the budget and the dictionary is a path. -/
theorem path_of_align (hsrc : src.PreparedFrom scale operations) (hlabels : D.DistinctLabels) {d : ℚ × Nat}
    (h : Align (Consumes src.library scale operations) y x d) (p : ProductPoint) (hp : p.consumed ≤ src.query.length)
    (hcost : p.cost + d.2 ≤ src.maxCost) (hword : ∃ n, D.node? (p.spelled ++ y) = some n)
    (hx : x <+: src.query.drop p.consumed) :
    (machine D src).Path (.product p) x y d.1 (.product ⟨p.spelled ++ y, p.consumed + x.length, p.cost + d.2⟩) := by
  induction h generalizing p with
  | nil => simpa using Transducer.Path.nil (T := machine D src) (Point.product p)
  | @cons u y v x d d' hop _ ih =>
    obtain ⟨n', hn'⟩ := hword
    rw [← List.append_assoc, Dictionary.node?_append] at hn'
    obtain ⟨m, hm, -⟩ := Option.bind_eq_some_iff.mp hn'
    have hm' := hm
    rw [Dictionary.node?_append] at hm'
    obtain ⟨n, hn, hwalk⟩ := Option.bind_eq_some_iff.mp hm'
    rw [Prod.snd_add] at hcost
    have hv : v <+: src.query.drop p.consumed := (List.prefix_append v x).trans hx
    have hle : p.consumed + v.length ≤ src.query.length := by
      have := hv.length_le
      rw [List.length_drop] at this
      omega
    have harc := exists_operationArc hsrc hlabels (p := p) hop (by omega) ⟨m, hwalk⟩ hle (List.prefix_iff_eq_take.mp hv)
    have hrest : x <+: src.query.drop (p.consumed + v.length) := by
      obtain ⟨rest, hrest⟩ := hx
      rw [← List.drop_drop, ← hrest, List.append_assoc, List.drop_left]
      exact List.prefix_append x rest
    have hpath := ih ⟨p.spelled ++ u, p.consumed + v.length, p.cost + d.2⟩ hle (by dsimp only; omega)
      ⟨n', by rw [Dictionary.node?_append, hm, ← hn', hm]⟩ hrest
    simpa [List.append_assoc, Nat.add_assoc] using (path_operation hn harc).append hpath

/-- The machine of a prepared source accepts what aligns by the operations it was prepared from. -/
theorem accepts_iff (hsrc : src.PreparedFrom scale operations) (hlabels : D.DistinctLabels) :
    (machine D src).Accepts (.product start) x y c ↔ x = src.query ∧ y ∈ D.words ∧
      ∃ d ≤ src.maxCost, Align (Consumes src.library scale operations) y x (c, d) := by
  constructor
  · rintro ⟨point, w, f, hpath, hfinal, rfl⟩
    have hcovers : Covers src scale operations x y w point := by
      refine Transducer.Path.snocInduction (motive := fun x y w point => Covers src scale operations x y w point) ?_ ?_ hpath
      · exact ⟨⟨Nat.zero_le _, .nil⟩, rfl, rfl⟩
      · exact fun _ ih hstep => ih.step hsrc hlabels hstep
    cases hfinal with
    | @accept p hconsumed hcost hword =>
      obtain ⟨⟨-, halign⟩, rfl, rfl⟩ := hcovers
      rw [hconsumed, List.take_length] at halign ⊢
      exact ⟨rfl, hword, p.cost, hcost, by rwa [add_zero]⟩
  · rintro ⟨rfl, hword, d, hd, halign⟩
    obtain ⟨n, hn, -⟩ := id hword
    have hpath := path_of_align hsrc hlabels halign start (Nat.zero_le _) (by simpa [start] using hd) ⟨n, by simpa [start] using hn⟩ (by simp [start])
    refine ⟨_, c, 0, hpath, .accept (by simp [start]) (by simpa [start] using hd) (by simpa [start] using hword), (add_zero c).symm⟩

end Relation

end OperationMachine
end Duallity
