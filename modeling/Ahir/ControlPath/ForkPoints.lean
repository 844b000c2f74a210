import Ahir.ControlPath.CPForkBlock

/-!
# Fork points and join points

A fork point `(fp, fre)` is an arc of a fork block out of a transition, a join
point `(jp, jre)` one into a transition.  The block records them in its fork and
join maps and keeps the predecessor and successor lists of the two ends in
step.
-/

set_option autoImplicit false

namespace Ahir.ControlPath.CPForkBlock
variable {E : Type} [DecidableEq E] (B : CPForkBlock E)

/-- `y` is listed as successor of `x` as often as `x` as predecessor of `y`. -/
structure Linked : Prop where
  successors_inside : ∀ x ∈ B.vertices, ∀ y ∈ B.successors x, y ∈ B.vertices
  predecessors_inside : ∀ y ∈ B.vertices, ∀ x ∈ B.predecessors y, x ∈ B.vertices
  mirrored : ∀ x ∈ B.vertices, ∀ y ∈ B.vertices,
    (B.successors x).count y = (B.predecessors y).count x

/-- `fp->Remove_Successor(fre)` with `fre->Remove_Predecessor(fp)`: the first
entry of each list is erased. -/
def unlink (x y : E) : CPForkBlock E :=
  { B with
    successors := fun e => if e = x then (B.successors e).erase y else B.successors e
    predecessors := fun e => if e = y then (B.predecessors e).erase x else B.predecessors e }

def removeForkPoint (fp fre : E) : CPForkBlock E :=
  if fre ∈ B.forkMap fp then
    { B.unlink fp fre with
      forkMap := fun e => if e = fp then (B.forkMap e).filter (fun l => l ≠ fre) else B.forkMap e }
  else B

def removeJoinPoint (jp jre : E) : CPForkBlock E :=
  if jre ∈ B.joinMap jp then
    { B.unlink jre jp with
      joinMap := fun e => if e = jp then (B.joinMap e).filter (fun l => l ≠ jre) else B.joinMap e }
  else B

/-- The vertices stay, the links stay in step, and no arcs but those of `gone`
are missing. -/
structure Shrinks (B B' : CPForkBlock E) (gone : E → E → Prop) : Prop where
  vertices : B'.vertices = B.vertices
  entry : B'.entry = B.entry
  isTransition : B'.isTransition = B.isTransition
  linked : B'.Linked
  fewer : ∀ x y, y ∈ B'.successors x → y ∈ B.successors x
  keeps : ∀ x y, y ∈ B.successors x → ¬ gone x y → y ∈ B'.successors x

variable {B}

theorem Linked.mem_iff (linked : B.Linked) {x y : E} (insideX : x ∈ B.vertices)
    (insideY : y ∈ B.vertices) : y ∈ B.successors x ↔ x ∈ B.predecessors y := by
  rw [← List.count_pos_iff, ← List.count_pos_iff, linked.mirrored x insideX y insideY]

theorem Linked.arc_iff (linked : B.Linked) {x y : E} :
    B.Arc x y ↔ y ∈ B.vertices ∧ x ∈ B.predecessors y := by
  constructor
  · intro arc
    have insideY := linked.successors_inside x arc.1 y arc.2
    exact ⟨insideY, (linked.mem_iff arc.1 insideY).mp arc.2⟩
  · intro link
    have insideX := linked.predecessors_inside y link.1 x link.2
    exact ⟨insideX, (linked.mem_iff insideX link.1).mpr link.2⟩

theorem Shrinks.refl (linked : B.Linked) (gone : E → E → Prop) : Shrinks B B gone :=
  ⟨rfl, rfl, rfl, linked, fun _ _ => id, fun _ _ member _ => member⟩

theorem Shrinks.trans {B' B'' : CPForkBlock E} {gone gone' : E → E → Prop}
    (first : Shrinks B B' gone) (second : Shrinks B' B'' gone') :
    Shrinks B B'' (fun x y => gone x y ∨ gone' x y) := by
  refine ⟨second.vertices.trans first.vertices, second.entry.trans first.entry,
    second.isTransition.trans first.isTransition, second.linked, ?_, ?_⟩
  · intro x y member
    exact first.fewer x y (second.fewer x y member)
  · intro x y member stays
    have stays' := not_or.mp stays
    exact second.keeps x y (first.keeps x y member stays'.1) stays'.2

theorem Shrinks.mono {B' : CPForkBlock E} {gone gone' : E → E → Prop} (shrinks : Shrinks B B' gone)
    (more : ∀ x y, gone x y → gone' x y) : Shrinks B B' gone' :=
  { shrinks with keeps := fun x y member stays =>
      shrinks.keeps x y member fun isGone => stays (more x y isGone) }

theorem Shrinks.arc_of_arc {B' : CPForkBlock E} {gone : E → E → Prop}
    (shrinks : Shrinks B B' gone) {x y : E} (arc : B'.Arc x y) : B.Arc x y :=
  ⟨shrinks.vertices ▸ arc.1, shrinks.fewer x y arc.2⟩

theorem Shrinks.arc_kept {B' : CPForkBlock E} {gone : E → E → Prop}
    (shrinks : Shrinks B B' gone) {x y : E} (arc : B.Arc x y) (stays : ¬ gone x y) : B'.Arc x y :=
  ⟨shrinks.vertices ▸ arc.1, shrinks.keeps x y arc.2 stays⟩

/-- Erasing one entry from both lists of an arc keeps the links in step. -/
theorem unlink_shrinks (linked : B.Linked) (x y : E) :
    Shrinks B (B.unlink x y) (fun a b => a = x ∧ b = y) := by
  refine ⟨rfl, rfl, rfl, ⟨?_, ?_, ?_⟩, ?_, ?_⟩
  · intro a insideA b member
    simp only [unlink] at member
    split_ifs at member
    · exact linked.successors_inside a insideA b (List.mem_of_mem_erase member)
    · exact linked.successors_inside a insideA b member
  · intro b insideB a member
    simp only [unlink] at member
    split_ifs at member
    · exact linked.predecessors_inside b insideB a (List.mem_of_mem_erase member)
    · exact linked.predecessors_inside b insideB a member
  · intro a insideA b insideB
    have same := linked.mirrored a insideA b insideB
    simp only [unlink]
    by_cases isX : a = x
    · by_cases isY : b = y
      · subst isX
        subst isY
        rw [if_pos rfl, if_pos rfl, List.count_erase_self, List.count_erase_self, same]
      · rw [if_pos isX, if_neg isY, List.count_erase_of_ne isY, same]
    · by_cases isY : b = y
      · rw [if_neg isX, if_pos isY, List.count_erase_of_ne isX, same]
      · rw [if_neg isX, if_neg isY, same]
  · intro a b member
    simp only [unlink] at member
    split_ifs at member
    · exact List.mem_of_mem_erase member
    · exact member
  · intro a b member stays
    simp only [unlink]
    split_ifs with isX
    · exact (List.mem_erase_of_ne fun isY => stays ⟨isX, isY⟩).mpr member
    · exact member

theorem removeForkPoint_shrinks (linked : B.Linked) (fp fre : E) :
    Shrinks B (B.removeForkPoint fp fre) (fun a b => a = fp ∧ b = fre) := by
  unfold removeForkPoint
  split_ifs
  · have shrinks := unlink_shrinks linked fp fre
    exact ⟨shrinks.vertices, shrinks.entry, shrinks.isTransition,
      ⟨shrinks.linked.successors_inside, shrinks.linked.predecessors_inside,
        shrinks.linked.mirrored⟩, shrinks.fewer, shrinks.keeps⟩
  · exact Shrinks.refl linked _

theorem removeJoinPoint_shrinks (linked : B.Linked) (jp jre : E) :
    Shrinks B (B.removeJoinPoint jp jre) (fun a b => a = jre ∧ b = jp) := by
  unfold removeJoinPoint
  split_ifs
  · have shrinks := unlink_shrinks linked jre jp
    exact ⟨shrinks.vertices, shrinks.entry, shrinks.isTransition,
      ⟨shrinks.linked.successors_inside, shrinks.linked.predecessors_inside,
        shrinks.linked.mirrored⟩, shrinks.fewer, shrinks.keeps⟩
  · exact Shrinks.refl linked _

end Ahir.ControlPath.CPForkBlock
