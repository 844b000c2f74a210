import Ahir.Graph.Walk

/-!
# Token flow through an acyclic graph

One token enters at the entry.  A vertex with one way out passes on what it
holds; a vertex with several ways out breaks what it holds into one fresh
branch for each way.  Branches that meet again may be traded back for what was
broken.  `held x` is what the vertex `x` holds when it is reached.

A token stands for the full walks along its branch.  At every time each full
walk is covered by exactly one token in flight, the one waiting at the first
vertex of the walk that is still to be reached.  From this follow the two facts
the development needs: a token and a token broken from it cover a common walk,
and so do the descendants of two different breaks of one token.
-/

set_option autoImplicit false

namespace Ahir.Graph

/-- The entering token, or the piece that leaves `vertex` by its way `index`. -/
inductive Token (V : Type) where
  | whole
  | branch (vertex : V) (index : Nat)
  deriving DecidableEq

/-- What arrives by the way `index` out of `tail`. -/
def carried {V : Type} (next : V → List V) (held : V → Set (Token V)) (tail : V) (index : Nat) :
    Set (Token V) :=
  if (next tail).length = 1 then held tail else {Token.branch tail index}

def gathered {V : Type} (inside : Set V) (next : V → List V) (entry : V)
    (held : V → Set (Token V)) (x : V) : Set (Token V) :=
  {p | (x = entry ∧ p = .whole) ∨
    ∃ y ∈ inside, ∃ i, (next y)[i]? = some x ∧ p ∈ carried next held y i}

/-- One trade at `x`: all pieces of each vertex of `whole` are given up, with
pieces of vertices that held the same, for what the vertices of `whole` held. -/
def TradedBack {V : Type} (inside : Set V) (next : V → List V) (rank : V → Nat)
    (held : V → Set (Token V)) (x : V) (before after : Set (Token V)) : Prop :=
  ∃ (whole : Set V) (gone : Set (Token V)),
    (∀ t ∈ whole, t ∈ inside ∧ rank t < rank x ∧ 2 ≤ (next t).length ∧
      ∀ i < (next t).length, Token.branch t i ∈ before ∧ Token.branch t i ∈ gone) ∧
    (∀ p ∈ gone, ∃ t ∈ whole, ∃ s i, p = .branch s i ∧ s ∈ inside ∧ rank s < rank x ∧
      held s = held t) ∧
    after = {p | (p ∈ before ∧ p ∉ gone) ∨ ∃ t ∈ whole, p ∈ held t}

section Congruence
variable {V : Type} {inside : Set V} {next : V → List V} {rank : V → Nat} {entry x : V}
  {held held' : V → Set (Token V)}

theorem gathered_congr (upward : ∀ y ∈ inside, ∀ z ∈ next y, rank y < rank z)
    (same : ∀ t ∈ inside, rank t < rank x → held t = held' t) :
    gathered inside next entry held x = gathered inside next entry held' x := by
  ext p
  refine or_congr Iff.rfl (exists_congr fun y => and_congr_right fun insideY => exists_congr fun i =>
    and_congr_right fun way => ?_)
  have less := upward y insideY x (List.mem_of_getElem? way)
  unfold carried
  rw [same y insideY less]

theorem TradedBack.congr (same : ∀ t ∈ inside, rank t < rank x → held t = held' t)
    {before after : Set (Token V)} (traded : TradedBack inside next rank held x before after) :
    TradedBack inside next rank held' x before after := by
  obtain ⟨whole, gone, wholeSpec, goneSpec, rfl⟩ := traded
  refine ⟨whole, gone, wholeSpec, ?_, ?_⟩
  · intro p isGone
    obtain ⟨t, inWhole, s, i, eq, insideS, less, heldEq⟩ := goneSpec p isGone
    obtain ⟨insideT, lessT, _⟩ := wholeSpec t inWhole
    refine ⟨t, inWhole, s, i, eq, insideS, less, ?_⟩
    rw [← same s insideS less, ← same t insideT lessT, heldEq]
  · ext p
    refine or_congr Iff.rfl (exists_congr fun t => and_congr_right fun inWhole => ?_)
    obtain ⟨insideT, lessT, _⟩ := wholeSpec t inWhole
    rw [same t insideT lessT]

end Congruence

structure TokenFlow (V : Type) where
  inside : Set V
  next : V → List V
  entry : V
  exit : V
  rank : V → Nat
  held : V → Set (Token V)
  next_inside : ∀ x ∈ inside, ∀ y ∈ next x, y ∈ inside
  next_nodup : ∀ x ∈ inside, (next x).Nodup
  exit_last : next exit = []
  rank_injective : ∀ x ∈ inside, ∀ y ∈ inside, rank x = rank y → x = y
  upward : ∀ x ∈ inside, ∀ y ∈ next x, rank x < rank y
  entry_inside : entry ∈ inside
  from_entry : ∀ x ∈ inside, Relation.ReflTransGen (fun a b => a ∈ inside ∧ b ∈ next a) entry x
  to_exit : ∀ x ∈ inside, Relation.ReflTransGen (fun a b => a ∈ inside ∧ b ∈ next a) x exit
  trades : ∀ x ∈ inside, Relation.ReflTransGen (TradedBack inside next rank held x)
    (gathered inside next entry held x) (held x)

namespace TokenFlow
variable {V : Type} (F : TokenFlow V)

/-- An arc out of a vertex of the graph. -/
def Arc (x y : V) : Prop := x ∈ F.inside ∧ y ∈ F.next x

def Walk (walk : List V) : Prop := FullWalk F.Arc F.entry F.exit walk

def Covers (walk : List V) : Token V → Prop
  | .whole => True
  | .branch t i => ∃ y, (F.next t)[i]? = some y ∧ Uses walk t y

/-- `b` is the first vertex of the walk that is not reached before `now`. -/
def Front (now : Nat) (walk : List V) (b : V) : Prop :=
  b ∈ walk ∧ now ≤ F.rank b ∧ ∀ c ∈ walk, now ≤ F.rank c → F.rank b ≤ F.rank c

/-- `p` is a piece of a break of something that included `q`. -/
def Parent (q p : Token V) : Prop :=
  ∃ t i, p = .branch t i ∧ t ∈ F.inside ∧ q ∈ F.held t

/-- `p` is `q` or is broken from it, in any number of breaks. -/
def Below : Token V → Token V → Prop := Relation.ReflTransGen F.Parent

/-- The token exists before `now`. -/
def Born (now : Nat) : Token V → Prop
  | .whole => True
  | .branch t i => t ∈ F.inside ∧ F.rank t < now ∧ i < (F.next t).length ∧ 2 ≤ (F.next t).length

def birth : Token V → Nat
  | .whole => 0
  | .branch t _ => F.rank t + 1

section Walks
variable {F}

theorem arc_upward : ∀ a b, F.Arc a b → F.rank a < F.rank b :=
  fun a b arc => F.upward a arc.1 b arc.2

theorem Walk.mem_inside {walk : List V} (full : F.Walk walk) {x : V} (member : x ∈ walk) :
    x ∈ F.inside := by
  by_cases isEntry : x = F.entry
  · exact isEntry ▸ F.entry_inside
  · obtain ⟨y, arc, _⟩ := FullWalk.uses_into_of_mem full member isEntry
    exact F.next_inside y arc.1 x arc.2

theorem Covers.mem {walk : List V} {t : V} {i : Nat} (covers : F.Covers walk (.branch t i)) :
    t ∈ walk := by
  obtain ⟨_, _, uses⟩ := covers
  exact uses.tail_mem

/-- A walk through a vertex with a way out leaves by one of its ways. -/
theorem Walk.leaves {walk : List V} (full : F.Walk walk) {t : V} (member : t ∈ walk)
    (wide : 0 < (F.next t).length) :
    ∃ (i : Nat) (y : V), (F.next t)[i]? = some y ∧ Uses walk t y := by
  have notExit : t ≠ F.exit := by
    rintro rfl
    simp [F.exit_last] at wide
  obtain ⟨y, arc, uses⟩ := FullWalk.uses_of_mem full member notExit
  obtain ⟨i, bound, eq⟩ := List.mem_iff_getElem.mp arc.2
  exact ⟨i, y, by simp [← eq, bound], uses⟩

theorem Walk.covers_branch {walk : List V} (full : F.Walk walk) {t : V} (member : t ∈ walk)
    (wide : 0 < (F.next t).length) :
    ∃ i < (F.next t).length, F.Covers walk (.branch t i) := by
  obtain ⟨i, y, way, uses⟩ := full.leaves member wide
  exact ⟨i, (List.getElem?_eq_some_iff.mp way).1, y, way, uses⟩

/-- A walk is in rank order: what comes after a vertex ranks higher. -/
theorem Walk.rank_lt_of_split {before after : List V} {x y : V}
    (full : F.Walk (before ++ x :: after)) (member : y ∈ after) : F.rank x < F.rank y := by
  have chain := full.chain.right_of_append
  cases after with
  | nil => simp at member
  | cons first rest =>
      rw [List.isChain_cons_cons] at chain
      exact Nat.lt_of_lt_of_le (arc_upward x first chain.1)
        (rank_le_of_reaches arc_upward (chain_reaches chain.2 y member))

theorem Walk.rank_le_of_before {before after : List V} {x y : V}
    (full : F.Walk (before ++ x :: after)) (member : y ∈ before) : F.rank y < F.rank x := by
  obtain ⟨left, right, rfl⟩ := List.append_of_mem member
  have full' : F.Walk (left ++ y :: (right ++ x :: after)) := by simpa using full
  exact full'.rank_lt_of_split (by simp)

/-- The front right after the vertex of rank `now` is the next vertex of the walk. -/
theorem Walk.front_succ_of_uses {walk : List V} (full : F.Walk walk) {x b : V}
    (uses : Uses walk x b) : F.Front (F.rank x + 1) walk b := by
  obtain ⟨before, after, rfl⟩ := uses
  have full' : F.Walk ((before ++ [x]) ++ b :: after) := by simpa using full
  refine ⟨by simp, full.rank_lt_of_split (by simp), ?_⟩
  intro c member late
  simp only [List.mem_append, List.mem_cons] at member
  rcases member with member | rfl | rfl | member
  · have := full.rank_le_of_before member
    omega
  · omega
  · exact Nat.le_refl _
  · exact Nat.le_of_lt (full'.rank_lt_of_split member)

theorem Walk.front_unique {walk : List V} (full : F.Walk walk) {now : Nat} {b c : V}
    (atB : F.Front now walk b) (atC : F.Front now walk c) : b = c :=
  F.rank_injective b (full.mem_inside atB.1) c (full.mem_inside atC.1)
    (Nat.le_antisymm (atB.2.2 c atC.1 atC.2.1) (atC.2.2 b atB.1 atB.2.1))

theorem Front.of_rank {walk : List V} {x : V} (member : x ∈ walk) : F.Front (F.rank x) walk x :=
  ⟨member, Nat.le_refl _, fun _ _ late => late⟩

theorem Front.succ {walk : List V} {now : Nat} {b : V} (front : F.Front now walk b)
    (later : F.rank b ≠ now) : F.Front (now + 1) walk b := by
  obtain ⟨member, late, first⟩ := front
  exact ⟨member, by omega, fun c inWalk lateC => first c inWalk (by omega)⟩

theorem Front.of_succ {walk : List V} {now : Nat} {b : V} (front : F.Front (now + 1) walk b)
    (absent : ∀ c ∈ walk, F.rank c ≠ now) : F.Front now walk b := by
  obtain ⟨member, late, first⟩ := front
  refine ⟨member, by omega, fun c inWalk lateC => first c inWalk ?_⟩
  have := absent c inWalk
  omega

/-- Conversely, when the walk goes through `x`, its next front is where it goes from `x`. -/
theorem Walk.uses_of_front_succ {walk : List V} (full : F.Walk walk) {x b : V} (member : x ∈ walk)
    (front : F.Front (F.rank x + 1) walk b) : Uses walk x b := by
  obtain ⟨before, after, rfl⟩ := List.append_of_mem member
  cases after with
  | nil =>
      have late := front.2.1
      have inWalk := front.1
      simp only [List.mem_append, List.mem_singleton] at inWalk
      rcases inWalk with inWalk | rfl
      · have := full.rank_le_of_before inWalk
        omega
      · omega
  | cons y rest =>
      have uses : Uses (before ++ x :: y :: rest) x y := ⟨before, rest, rfl⟩
      exact full.front_unique front (full.front_succ_of_uses uses) ▸ uses

end Walks

/-- What holds of every vertex reached before `now`. -/
structure Settled (now : Nat) : Prop where
  covered : ∀ x ∈ F.inside, F.rank x < now → ∀ walk, F.Walk walk →
    (x ∈ walk ↔ ∃ p ∈ F.held x, F.Covers walk p)
  alone : ∀ x ∈ F.inside, F.rank x < now → ∀ walk, F.Walk walk →
    ∀ p ∈ F.held x, ∀ q ∈ F.held x, F.Covers walk p → F.Covers walk q → p = q
  born : ∀ x ∈ F.inside, F.rank x < now → ∀ p ∈ F.held x, F.Born (F.rank x) p
  sticks : ∀ j ∈ F.inside, ∀ k ∈ F.inside, F.rank j < F.rank k → F.rank k < now →
    ∀ p ∈ F.held j, p ∈ F.held k → ∀ walk, F.Walk walk → j ∈ walk → k ∈ walk
  retired : ∀ t ∈ F.inside, ∀ t' ∈ F.inside, F.rank t < F.rank t' →
    ∀ p ∈ F.held t, p ∈ F.held t' → ∀ x ∈ F.inside, F.rank t' ≤ F.rank x → F.rank x < now →
    ∀ q ∈ F.held x, ∀ i, ¬ F.Below (.branch t i) q

/-- The tokens in flight share out the walks among themselves: `share b` waits
for the vertex `b`. -/
structure Partitioned (now : Nat) (share : V → Set (Token V)) : Prop where
  at_front : ∀ b, ∀ p ∈ share b, ∀ walk, F.Walk walk → F.Covers walk p → F.Front now walk b
  front_covered : ∀ b walk, F.Walk walk → F.Front now walk b → ∃ p ∈ share b, F.Covers walk p
  alone : ∀ b, ∀ p ∈ share b, ∀ q ∈ share b, ∀ walk, F.Walk walk →
    F.Covers walk p → F.Covers walk q → p = q
  born : ∀ b, ∀ p ∈ share b, F.Born now p
  sticks : ∀ j ∈ F.inside, F.rank j < now → ∀ b, ∀ p ∈ share b, p ∈ F.held j →
    ∀ walk, F.Walk walk → j ∈ walk → F.Front now walk b
  retired : ∀ t ∈ F.inside, ∀ t' ∈ F.inside, F.rank t < F.rank t' → F.rank t' < now →
    ∀ p ∈ F.held t, p ∈ F.held t' → ∀ b, ∀ q ∈ share b, ∀ i, ¬ F.Below (.branch t i) q

/-- A property of walks that is settled by what a walk does before the vertices
of rank `from` and up. -/
def StableFrom (r : Nat) (P : List V → Prop) : Prop :=
  ∀ before x after after', F.Walk (before ++ x :: after) → F.Walk (before ++ x :: after') →
    r ≤ F.rank x → P (before ++ x :: after) → P (before ++ x :: after')

section Tokens
variable {F}

theorem Born.mono {now later : Nat} {p : Token V} (born : F.Born now p) (le : now ≤ later) :
    F.Born later p := by
  cases p with
  | whole => trivial
  | branch t i => exact ⟨born.1, Nat.lt_of_lt_of_le born.2.1 le, born.2.2⟩

theorem Born.birth_le {now : Nat} {p : Token V} (born : F.Born now p) : F.birth p ≤ now := by
  cases p with
  | whole => exact Nat.zero_le _
  | branch t i => exact born.2.1

theorem stableFrom_covers (p : Token V) : F.StableFrom (F.birth p) (fun walk => F.Covers walk p) := by
  intro before x after after' full _ late covers
  cases p with
  | whole => trivial
  | branch t i =>
      obtain ⟨y, way, uses⟩ := covers
      exact ⟨y, way, FullWalk.uses_before arc_upward full uses late after'⟩

theorem StableFrom.mono {r r' : Nat} {P : List V → Prop} (stable : F.StableFrom r P)
    (le : r ≤ r') : F.StableFrom r' P :=
  fun before x after after' full full' late => stable before x after after' full full' (by omega)

theorem Walk.exists_leaving {before after : List V} {t y : V} {i : Nat}
    (full : F.Walk (before ++ t :: after)) (way : (F.next t)[i]? = some y) :
    ∃ after', F.Walk (before ++ t :: y :: after') := by
  have inside : t ∈ F.inside := full.mem_inside (by simp)
  have isNext : y ∈ F.next t := List.mem_of_getElem? way
  obtain ⟨before', after', full'⟩ : ∃ before' after', F.Walk (before' ++ t :: y :: after') :=
    exists_fullWalk_uses ⟨inside, isNext⟩ (F.from_entry t inside) (F.to_exit y (F.next_inside t inside y isNext))
  exact ⟨after', full.reroute full'⟩

theorem Born.exists_walk {now : Nat} {p : Token V} (born : F.Born now p) :
    ∃ walk, F.Walk walk ∧ F.Covers walk p := by
  cases p with
  | whole =>
      obtain ⟨before, after, full⟩ : ∃ before after, F.Walk (before ++ F.entry :: after) :=
        exists_fullWalk_through (F.from_entry F.entry F.entry_inside)
          (F.to_exit F.entry F.entry_inside)
      exact ⟨_, full, trivial⟩
  | branch t i =>
      obtain ⟨inside, _, bound, _⟩ := born
      obtain ⟨before, after, full⟩ : ∃ before after, F.Walk (before ++ t :: after) :=
        exists_fullWalk_through (F.from_entry t inside) (F.to_exit t inside)
      have way : (F.next t)[i]? = some (F.next t)[i] := List.getElem?_eq_getElem bound
      obtain ⟨after', full'⟩ := Walk.exists_leaving full way
      exact ⟨_, full', _, way, before, after', rfl⟩

variable {now : Nat}

theorem Settled.born_of_parent (settled : F.Settled now) {q p : Token V} (parent : F.Parent q p)
    (born : F.Born now p) : F.Born now q ∧ F.birth q < F.birth p := by
  obtain ⟨t, i, rfl, inside, held⟩ := parent
  have bornQ := settled.born t inside born.2.1 q held
  exact ⟨bornQ.mono (Nat.le_of_lt born.2.1), Nat.lt_succ_of_le bornQ.birth_le⟩

theorem Settled.born_of_below (settled : F.Settled now) {q p : Token V} (below : F.Below q p)
    (born : F.Born now p) : F.Born now q ∧ F.birth q ≤ F.birth p := by
  induction below using Relation.ReflTransGen.head_induction_on with
  | refl => exact ⟨born, Nat.le_refl _⟩
  | head parent _ ih =>
      obtain ⟨bornQ, less⟩ := settled.born_of_parent parent ih.1
      exact ⟨bornQ, by omega⟩

/-- A walk of `P` along a token can be turned into a walk of `P` along any
token broken from it, since the breaks come after what decides `P`. -/
theorem Settled.meets (settled : F.Settled now) {r : Nat} {P : List V → Prop}
    (stable : F.StableFrom r P) {p q : Token V} (below : F.Below p q) (born : F.Born now q)
    (late : r ≤ F.birth p) (start : ∃ walk, F.Walk walk ∧ P walk ∧ F.Covers walk p) :
    ∃ walk, F.Walk walk ∧ P walk ∧ F.Covers walk q := by
  induction below with
  | refl => exact start
  | @tail q' q below parent ih =>
      obtain ⟨bornQ', _⟩ := settled.born_of_parent parent born
      obtain ⟨walk, full, inP, covers⟩ := ih bornQ'
      have birthLe := (settled.born_of_below below bornQ').2
      obtain ⟨t, i, rfl, inside, held⟩ := parent
      have member := (settled.covered t inside born.2.1 walk full).mpr ⟨q', held, covers⟩
      obtain ⟨before, after, rfl⟩ := List.append_of_mem member
      have way : (F.next t)[i]? = some ((F.next t).get ⟨i, born.2.2.1⟩) :=
        List.getElem?_eq_getElem born.2.2.1
      obtain ⟨after', full'⟩ := Walk.exists_leaving full way
      have bornHeld := (settled.born t inside born.2.1 q' held).birth_le
      exact ⟨_, full', stable before t after _ full full' (by omega) inP,
        _, way, before, after', rfl⟩

theorem Settled.exists_walk_of_below (settled : F.Settled now) {p q : Token V}
    (below : F.Below p q) (born : F.Born now q) :
    ∃ walk, F.Walk walk ∧ F.Covers walk p ∧ F.Covers walk q := by
  obtain ⟨bornP, _⟩ := settled.born_of_below below born
  obtain ⟨walk, full, covers⟩ := bornP.exists_walk
  exact settled.meets (stableFrom_covers p) below born (Nat.le_refl _) ⟨walk, full, covers, covers⟩

theorem Settled.not_below_parent (settled : F.Settled now) {t : V} {i : Nat} {p : Token V}
    (inside : t ∈ F.inside) (held : p ∈ F.held t) (born : F.Born now p) :
    ¬ F.Below (.branch t i) p := by
  intro below
  obtain ⟨bornT, le⟩ := settled.born_of_below below born
  have := (settled.born_of_parent (q := p) ⟨t, i, rfl, inside, held⟩ bornT).2
  omega

/-- A vertex does not wait for a token next to a proper piece of it. -/
theorem Partitioned.not_below {share : V → Set (Token V)} (settled : F.Settled now)
    (part : F.Partitioned now share) {t b : V} {i : Nat} {p q : Token V}
    (inside : t ∈ F.inside) (held : p ∈ F.held t) (memP : p ∈ share b) (memQ : q ∈ share b) :
    ¬ F.Below (.branch t i) q := by
  intro below
  have whole : F.Below p q := Relation.ReflTransGen.head ⟨t, i, rfl, inside, held⟩ below
  obtain ⟨walk, full, coversP, coversQ⟩ := settled.exists_walk_of_below whole (part.born b q memQ)
  have same := part.alone b p memP q memQ walk full coversP coversQ
  exact settled.not_below_parent inside held (part.born b p memP) (same ▸ below)

end Tokens

end TokenFlow

end Ahir.Graph
