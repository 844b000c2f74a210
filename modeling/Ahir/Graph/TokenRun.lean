import Ahir.Graph.TokenFlow

/-!
# The walks are shared out at every time

The entering token starts the run.  Trading back at the vertex that is reached
keeps the tokens in flight a partition of the walks, and so does sending on
what the vertex holds.  The results about a whole graph are read off at a time
after its last vertex.
-/

set_option autoImplicit false

namespace Ahir.Graph.TokenFlow
variable {V : Type} {F : TokenFlow V} {now : Nat}

/-- The shares with the one of `x` replaced. -/
def withShare (share : V → Set (Token V)) (x : V) (mine : Set (Token V)) (b : V) : Set (Token V) :=
  {p | (b ≠ x ∧ p ∈ share b) ∨ (b = x ∧ p ∈ mine)}

/-- The shares after `x` has sent on what it holds. -/
def sent (F : TokenFlow V) (share : V → Set (Token V)) (x b : V) : Set (Token V) :=
  {p | (b ≠ x ∧ p ∈ share b) ∨
    ∃ i : Nat, (F.next x)[i]? = some b ∧ p ∈ carried F.next F.held x i}

/-- What waits for `b` when the vertices ranked below `now` have been reached. -/
def pending (F : TokenFlow V) (now : Nat) (b : V) : Set (Token V) :=
  {p | (b = F.entry ∧ p = .whole ∧ now ≤ F.rank F.entry) ∨
    ∃ y ∈ F.inside, F.rank y < now ∧ now ≤ F.rank b ∧
      ∃ i : Nat, (F.next y)[i]? = some b ∧ p ∈ carried F.next F.held y i}

section Trade
variable {share : V → Set (Token V)} {x : V} {before after : Set (Token V)}

/-- Where all pieces of a break wait together, all walks through the break wait. -/
theorem Partitioned.front_of_pieces (part : F.Partitioned now (withShare share x before)) {t : V}
    (wide : 2 ≤ (F.next t).length) (pieces : ∀ i < (F.next t).length, Token.branch t i ∈ before)
    {walk : List V} (full : F.Walk walk) (member : t ∈ walk) :
    F.Front now walk x ∧ ∃ i < (F.next t).length, F.Covers walk (.branch t i) := by
  obtain ⟨i, bound, covers⟩ := full.covers_branch member (by omega)
  exact ⟨part.at_front x _ (Or.inr ⟨rfl, pieces i bound⟩) walk full covers, i, bound, covers⟩

/-- The vertices of `whole` are traded back at `x`, which waits for their pieces. -/
structure Trading (F : TokenFlow V) (now : Nat) (x : V) (before : Set (Token V)) (whole : Set V)
    (gone : Set (Token V)) : Prop where
  reached : ∀ t ∈ whole, t ∈ F.inside ∧ F.rank t < now
  pieces : ∀ t ∈ whole, 2 ≤ (F.next t).length ∧
    ∀ i < (F.next t).length, Token.branch t i ∈ before ∧ Token.branch t i ∈ gone
  front : ∀ t ∈ whole, ∀ walk, F.Walk walk → t ∈ walk →
    F.Front now walk x ∧ ∃ i < (F.next t).length, F.Covers walk (.branch t i)
  through : ∀ t ∈ whole, ∀ p ∈ F.held t, ∀ walk, F.Walk walk → F.Covers walk p → t ∈ walk

namespace Trading
variable {whole : Set V} {gone : Set (Token V)}

theorem of_partitioned (settled : F.Settled now) (isNow : F.rank x = now)
    (part : F.Partitioned now (withShare share x before))
    (wholeSpec : ∀ t ∈ whole, t ∈ F.inside ∧ F.rank t < F.rank x ∧ 2 ≤ (F.next t).length ∧
      ∀ i < (F.next t).length, Token.branch t i ∈ before ∧ Token.branch t i ∈ gone) :
    F.Trading now x before whole gone := by
  have reached : ∀ t ∈ whole, t ∈ F.inside ∧ F.rank t < now := by
    intro t inWhole
    obtain ⟨inside, below, _⟩ := wholeSpec t inWhole
    exact ⟨inside, isNow ▸ below⟩
  refine ⟨reached, fun t inWhole => (wholeSpec t inWhole).2.2, fun t inWhole walk full member => ?_,
    fun t inWhole p held walk full covers => ?_⟩
  · obtain ⟨_, _, wide, pieces⟩ := wholeSpec t inWhole
    exact part.front_of_pieces wide (fun i bound => (pieces i bound).1) full member
  · exact (settled.covered t (reached t inWhole).1 (reached t inWhole).2 walk full).mpr ⟨p, held, covers⟩

/-- A walk along a token traded in is along a piece that was traded for it. -/
theorem not_mixed (trading : F.Trading now x before whole gone)
    (part : F.Partitioned now (withShare share x before)) {p q : Token V} (member : p ∈ before) (kept : p ∉ gone)
    {t : V} (inWhole : t ∈ whole) (held : q ∈ F.held t) {walk : List V} (full : F.Walk walk)
    (coversP : F.Covers walk p) (coversQ : F.Covers walk q) : False := by
  obtain ⟨_, i, bound, coversI⟩ :=
    trading.front t inWhole walk full (trading.through t inWhole q held walk full coversQ)
  have piece := (trading.pieces t inWhole).2 i bound
  have same := part.alone x p (Or.inr ⟨rfl, member⟩) _ (Or.inr ⟨rfl, piece.1⟩) walk full coversP coversI
  exact kept (same ▸ piece.2)

theorem whole_eq (trading : F.Trading now x before whole gone)
    (part : F.Partitioned now (withShare share x before)) {t t' : V} (inWhole : t ∈ whole) (inWhole' : t' ∈ whole)
    {p q : Token V} (heldP : p ∈ F.held t) (heldQ : q ∈ F.held t') {walk : List V} (full : F.Walk walk)
    (coversP : F.Covers walk p) (coversQ : F.Covers walk q) : t = t' := by
  obtain ⟨_, i, bound, coversI⟩ :=
    trading.front t inWhole walk full (trading.through t inWhole p heldP walk full coversP)
  obtain ⟨_, i', bound', coversI'⟩ :=
    trading.front t' inWhole' walk full (trading.through t' inWhole' q heldQ walk full coversQ)
  have same := part.alone x _ (Or.inr ⟨rfl, ((trading.pieces t inWhole).2 i bound).1⟩) _
    (Or.inr ⟨rfl, ((trading.pieces t' inWhole').2 i' bound').1⟩) walk full coversI coversI'
  exact (Token.branch.inj same).1

theorem alone (trading : F.Trading now x before whole gone) (settled : F.Settled now)
    (part : F.Partitioned now (withShare share x before)) {p q : Token V}
    (memP : p ∈ before ∧ p ∉ gone ∨ ∃ t ∈ whole, p ∈ F.held t)
    (memQ : q ∈ before ∧ q ∉ gone ∨ ∃ t ∈ whole, q ∈ F.held t) {walk : List V} (full : F.Walk walk)
    (coversP : F.Covers walk p) (coversQ : F.Covers walk q) : p = q := by
  rcases memP with ⟨memP, keptP⟩ | ⟨t, inWhole, heldP⟩
  · rcases memQ with ⟨memQ, _⟩ | ⟨t', inWhole', heldQ⟩
    · exact part.alone x p (Or.inr ⟨rfl, memP⟩) q (Or.inr ⟨rfl, memQ⟩) walk full coversP coversQ
    · exact (trading.not_mixed part memP keptP inWhole' heldQ full coversP coversQ).elim
  · rcases memQ with ⟨memQ, keptQ⟩ | ⟨t', inWhole', heldQ⟩
    · exact (trading.not_mixed part memQ keptQ inWhole heldP full coversQ coversP).elim
    · obtain rfl := trading.whole_eq part inWhole inWhole' heldP heldQ full coversP coversQ
      obtain ⟨inside, early⟩ := trading.reached t inWhole
      exact settled.alone t inside early walk full p heldP q heldQ coversP coversQ

/-- What a whole held waits for `x` in all walks through a vertex that held it. -/
theorem sticks (trading : F.Trading now x before whole gone) (settled : F.Settled now)
    (part : F.Partitioned now (withShare share x before)) {t j : V} (inWhole : t ∈ whole) (insideJ : j ∈ F.inside)
    (early : F.rank j < now) {p : Token V} (held : p ∈ F.held t) (heldJ : p ∈ F.held j) {walk : List V}
    (full : F.Walk walk) (inWalk : j ∈ walk) : F.Front now walk x := by
  obtain ⟨inside, earlyT⟩ := trading.reached t inWhole
  rcases Nat.lt_trichotomy (F.rank j) (F.rank t) with less | same | greater
  · have inWalkT := settled.sticks j insideJ t inside less earlyT p heldJ held walk full inWalk
    exact (trading.front t inWhole walk full inWalkT).1
  · obtain rfl := F.rank_injective j insideJ t inside same
    exact (trading.front j inWhole walk full inWalk).1
  · -- the pieces of `t` would still be in flight after the whole was held again
    obtain ⟨wide, pieces⟩ := trading.pieces t inWhole
    exact (part.retired t inside j insideJ greater early p held heldJ x (.branch t 0)
      (Or.inr ⟨rfl, (pieces 0 (by omega)).1⟩) 0 Relation.ReflTransGen.refl).elim

end Trading

theorem Partitioned.trade (settled : F.Settled now) (isNow : F.rank x = now)
    (part : F.Partitioned now (withShare share x before))
    (traded : TradedBack F.inside F.next F.rank F.held x before after) :
    F.Partitioned now (withShare share x after) := by
  obtain ⟨whole, gone, wholeSpec, goneSpec, rfl⟩ := traded
  have trading : F.Trading now x before whole gone := Trading.of_partitioned settled isNow part wholeSpec
  refine ⟨?_, ?_, ?_, ?_, ?_, ?_⟩
  · rintro b p (⟨other, member⟩ | ⟨rfl, ⟨member, _⟩ | ⟨t, inWhole, held⟩⟩) walk full covers
    · exact part.at_front b p (Or.inl ⟨other, member⟩) walk full covers
    · exact part.at_front b p (Or.inr ⟨rfl, member⟩) walk full covers
    · exact (trading.front t inWhole walk full (trading.through t inWhole p held walk full covers)).1
  · intro b walk full atFront
    obtain ⟨p, ⟨other, member⟩ | ⟨rfl, member⟩, covers⟩ := part.front_covered b walk full atFront
    · exact ⟨p, Or.inl ⟨other, member⟩, covers⟩
    · by_cases isGone : p ∈ gone
      · -- the walk went through a vertex that held what a traded one held
        obtain ⟨t, inWhole, s, i, rfl, insideS, belowS, heldEq⟩ := goneSpec p isGone
        obtain ⟨q, held, coversQ⟩ :=
          (settled.covered s insideS (isNow ▸ belowS) walk full).mp covers.mem
        exact ⟨q, Or.inr ⟨rfl, Or.inr ⟨t, inWhole, heldEq ▸ held⟩⟩, coversQ⟩
      · exact ⟨p, Or.inr ⟨rfl, Or.inl ⟨member, isGone⟩⟩, covers⟩
  · rintro b p (⟨other, memP⟩ | ⟨rfl, memP⟩) q (⟨otherQ, memQ⟩ | ⟨isX, memQ⟩) walk full coversP coversQ
    · exact part.alone b p (Or.inl ⟨other, memP⟩) q (Or.inl ⟨other, memQ⟩) walk full coversP coversQ
    · exact absurd isX other
    · exact absurd rfl otherQ
    · exact trading.alone settled part memP memQ full coversP coversQ
  · rintro b p (⟨other, member⟩ | ⟨rfl, ⟨member, _⟩ | ⟨t, inWhole, held⟩⟩)
    · exact part.born b p (Or.inl ⟨other, member⟩)
    · exact part.born b p (Or.inr ⟨rfl, member⟩)
    · obtain ⟨inside, early⟩ := trading.reached t inWhole
      exact (settled.born t inside early p held).mono (Nat.le_of_lt early)
  · rintro j insideJ early b p (⟨other, member⟩ | ⟨rfl, ⟨member, _⟩ | ⟨t, inWhole, held⟩⟩) heldJ
      walk full inWalk
    · exact part.sticks j insideJ early b p (Or.inl ⟨other, member⟩) heldJ walk full inWalk
    · exact part.sticks j insideJ early b p (Or.inr ⟨rfl, member⟩) heldJ walk full inWalk
    · exact trading.sticks settled part inWhole insideJ early held heldJ full inWalk
  · rintro t insideT t' insideT' less early p heldT heldT' b q
      (⟨other, member⟩ | ⟨rfl, ⟨member, _⟩ | ⟨s, inWhole, held⟩⟩) i below
    · exact part.retired t insideT t' insideT' less early p heldT heldT' b q
        (Or.inl ⟨other, member⟩) i below
    · exact part.retired t insideT t' insideT' less early p heldT heldT' b q
        (Or.inr ⟨rfl, member⟩) i below
    · obtain ⟨wide, pieces⟩ := trading.pieces s inWhole
      exact part.retired t insideT t' insideT' less early p heldT heldT' b (.branch s 0)
        (Or.inr ⟨rfl, (pieces 0 (by omega)).1⟩) i (below.tail ⟨s, 0, rfl, (trading.reached s inWhole).1, held⟩)

end Trade

section Advance
variable {share : V → Set (Token V)} {x : V}

/-- What reaches `b` from `x` along a walk is carried by the way the walk takes. -/
theorem front_of_carried
    (part : F.Partitioned (F.rank x) (withShare share x (F.held x))) {b : V} {i : Nat}
    (way : (F.next x)[i]? = some b) {p : Token V} (member : p ∈ carried F.next F.held x i)
    {walk : List V} (full : F.Walk walk) (covers : F.Covers walk p) : Uses walk x b := by
  have bound : i < (F.next x).length := (List.getElem?_eq_some_iff.mp way).1
  by_cases single : (F.next x).length = 1
  · rw [carried, if_pos single] at member
    have inWalk := (part.at_front x p (Or.inr ⟨rfl, member⟩) walk full covers).1
    obtain ⟨i', y, way', uses⟩ := full.leaves inWalk (by omega)
    have bound' : i' < (F.next x).length := (List.getElem?_eq_some_iff.mp way').1
    obtain rfl : i = i' := by omega
    rw [way] at way'
    exact Option.some.inj way' ▸ uses
  · rw [carried, if_neg single] at member
    obtain rfl := member
    obtain ⟨y, way', uses⟩ := covers
    rw [way] at way'
    exact Option.some.inj way' ▸ uses

theorem Settled.split_reached (inside : x ∈ F.inside) {y : V} (insideY : y ∈ F.inside)
    (reached : F.rank y < F.rank x + 1) : F.rank y < F.rank x ∨ y = x := by
  rcases Nat.lt_or_eq_of_le (Nat.le_of_lt_succ reached) with less | same
  · exact Or.inl less
  · exact Or.inr (F.rank_injective y insideY x inside same)

/-- Nothing left of an earlier break is held once its whole is held again at `x`. -/
theorem Partitioned.retired_held (settled : F.Settled (F.rank x)) (inside : x ∈ F.inside)
    (part : F.Partitioned (F.rank x) (withShare share x (F.held x))) {t t' : V}
    (insideT : t ∈ F.inside) (insideT' : t' ∈ F.inside) (less : F.rank t < F.rank t')
    (reached : F.rank t' < F.rank x + 1) {p : Token V} (heldT : p ∈ F.held t)
    (heldT' : p ∈ F.held t') {q : Token V} (heldQ : q ∈ F.held x) (i : Nat) :
    ¬ F.Below (.branch t i) q := by
  rcases Settled.split_reached inside insideT' reached with early | rfl
  · exact part.retired t insideT t' insideT' less early p heldT heldT' x q (Or.inr ⟨rfl, heldQ⟩) i
  · exact part.not_below settled insideT heldT (Or.inr ⟨rfl, heldT'⟩) (Or.inr ⟨rfl, heldQ⟩)

theorem mem_mine {p : Token V} (held : p ∈ F.held x) : p ∈ withShare share x (F.held x) x := Or.inr ⟨rfl, held⟩

theorem Settled.advance (settled : F.Settled (F.rank x)) (inside : x ∈ F.inside)
    (part : F.Partitioned (F.rank x) (withShare share x (F.held x))) :
    F.Settled (F.rank x + 1) := by
  have held_of_mine : ∀ p ∈ withShare share x (F.held x) x, p ∈ F.held x := by
    rintro p (⟨other, _⟩ | ⟨_, held⟩)
    · exact absurd rfl other
    · exact held
  refine ⟨?_, ?_, ?_, ?_, ?_⟩
  · intro y insideY reached walk full
    rcases Settled.split_reached inside insideY reached with early | rfl
    · exact settled.covered y insideY early walk full
    · constructor
      · intro inWalk
        obtain ⟨p, member, covers⟩ := part.front_covered y walk full (Front.of_rank inWalk)
        exact ⟨p, held_of_mine p member, covers⟩
      · rintro ⟨p, held, covers⟩
        exact (part.at_front y p (mem_mine held) walk full covers).1
  · intro y insideY reached walk full p heldP q heldQ coversP coversQ
    rcases Settled.split_reached inside insideY reached with early | rfl
    · exact settled.alone y insideY early walk full p heldP q heldQ coversP coversQ
    · exact part.alone y p (mem_mine heldP) q (mem_mine heldQ) walk full coversP coversQ
  · intro y insideY reached p held
    rcases Settled.split_reached inside insideY reached with early | rfl
    · exact settled.born y insideY early p held
    · exact part.born y p (mem_mine held)
  · intro j insideJ k insideK less reached p heldJ heldK walk full inWalk
    rcases Settled.split_reached inside insideK reached with early | rfl
    · exact settled.sticks j insideJ k insideK less early p heldJ heldK walk full inWalk
    · exact (part.sticks j insideJ less k p (mem_mine heldK) heldJ walk full inWalk).1
  · intro t insideT t' insideT' less p heldT heldT' z insideZ order reached q heldQ i
    rcases Settled.split_reached inside insideZ reached with early | rfl
    · exact settled.retired t insideT t' insideT' less p heldT heldT' z insideZ order early q heldQ i
    · exact part.retired_held settled inside insideT insideT' less (by omega) heldT heldT' heldQ i

theorem front_later (inside : x ∈ F.inside) {b : V} (other : b ≠ x) {walk : List V} (full : F.Walk walk)
    (front : F.Front (F.rank x) walk b) : F.Front (F.rank x + 1) walk b :=
  front.succ fun same => other (F.rank_injective b (full.mem_inside front.1) x inside same)

theorem Partitioned.sent_covered (settled : F.Settled (F.rank x)) (inside : x ∈ F.inside)
    (part : F.Partitioned (F.rank x) (withShare share x (F.held x))) {b : V} {walk : List V} (full : F.Walk walk)
    (front : F.Front (F.rank x + 1) walk b) : ∃ p ∈ F.sent share x b, F.Covers walk p := by
  by_cases inWalk : x ∈ walk
  · have uses := full.uses_of_front_succ inWalk front
    obtain ⟨before, after, split⟩ := uses
    have isNext : b ∈ F.next x := by
      have chain := split ▸ full.chain
      exact (List.isChain_cons_cons.mp chain.right_of_append).1.2
    obtain ⟨i, bound, eq⟩ := List.mem_iff_getElem.mp isNext
    have way : (F.next x)[i]? = some b := by simp [← eq, bound]
    by_cases single : (F.next x).length = 1
    · obtain ⟨p, held, covers⟩ :=
        ((settled.advance inside part).covered x inside (Nat.lt_succ_self _) walk full).mp inWalk
      exact ⟨p, Or.inr ⟨i, way, by rw [carried, if_pos single]; exact held⟩, covers⟩
    · exact ⟨.branch x i, Or.inr ⟨i, way, by rw [carried, if_neg single]; rfl⟩,
        b, way, before, after, split⟩
  · have absent : ∀ c ∈ walk, F.rank c ≠ F.rank x := by
      intro c member same
      exact inWalk (F.rank_injective c (full.mem_inside member) x inside same ▸ member)
    have front' := front.of_succ absent
    obtain ⟨p, ⟨other, member⟩ | ⟨rfl, _⟩, covers⟩ := part.front_covered b walk full front'
    · exact ⟨p, Or.inl ⟨other, member⟩, covers⟩
    · exact absurd front.1 inWalk

theorem Partitioned.sent_alone (inside : x ∈ F.inside)
    (part : F.Partitioned (F.rank x) (withShare share x (F.held x))) {b : V} {p q : Token V}
    (memP : p ∈ F.sent share x b) (memQ : q ∈ F.sent share x b) {walk : List V} (full : F.Walk walk)
    (coversP : F.Covers walk p) (coversQ : F.Covers walk q) : p = q := by
  have crossed : ∀ r i, (F.next x)[i]? = some b → r ∈ carried F.next F.held x i →
      F.Covers walk r → x ∈ walk := fun r i way member covers =>
    (front_of_carried part way member full covers).tail_mem
  have notOld : b ≠ x → ∀ r ∈ share b, F.Covers walk r → x ∉ walk := by
    intro other r member covers inWalk
    exact other (full.front_unique
      (part.at_front b r (Or.inl ⟨other, member⟩) walk full covers) (Front.of_rank inWalk))
  rcases memP with ⟨other, memP⟩ | ⟨i, way, memP⟩
  · rcases memQ with ⟨_, memQ⟩ | ⟨i', way', memQ⟩
    · exact part.alone b p (Or.inl ⟨other, memP⟩) q (Or.inl ⟨other, memQ⟩) walk full coversP coversQ
    · exact absurd (crossed q i' way' memQ coversQ) (notOld other p memP coversP)
  · rcases memQ with ⟨other, memQ⟩ | ⟨i', way', memQ⟩
    · exact absurd (crossed p i way memP coversP) (notOld other q memQ coversQ)
    · have bound := (List.getElem?_eq_some_iff.mp way).1
      have same : i = i' := by
        have bound' := (List.getElem?_eq_some_iff.mp way').1
        exact (F.next_nodup x inside).getElem_inj_iff.mp
          ((List.getElem?_eq_some_iff.mp way).2.trans (List.getElem?_eq_some_iff.mp way').2.symm)
      subst same
      by_cases single : (F.next x).length = 1
      · rw [carried, if_pos single] at memP memQ
        exact part.alone x p (mem_mine memP) q (mem_mine memQ) walk full coversP coversQ
      · rw [carried, if_neg single] at memP memQ
        exact memP.trans memQ.symm

theorem Partitioned.sent_born (inside : x ∈ F.inside)
    (part : F.Partitioned (F.rank x) (withShare share x (F.held x))) {b : V} {p : Token V}
    (member : p ∈ F.sent share x b) : F.Born (F.rank x + 1) p := by
  rcases member with ⟨other, member⟩ | ⟨i, way, member⟩
  · exact (part.born b p (Or.inl ⟨other, member⟩)).mono (Nat.le_succ _)
  · have bound := (List.getElem?_eq_some_iff.mp way).1
    by_cases single : (F.next x).length = 1
    · rw [carried, if_pos single] at member
      exact (part.born x p (mem_mine member)).mono (Nat.le_succ _)
    · rw [carried, if_neg single] at member
      obtain rfl := member
      exact ⟨inside, Nat.lt_succ_self _, bound, by omega⟩

theorem Partitioned.sent_sticks (settled : F.Settled (F.rank x)) (inside : x ∈ F.inside)
    (part : F.Partitioned (F.rank x) (withShare share x (F.held x))) {j b : V} (insideJ : j ∈ F.inside)
    (reached : F.rank j < F.rank x + 1) {p : Token V} (member : p ∈ F.sent share x b) (heldJ : p ∈ F.held j)
    {walk : List V} (full : F.Walk walk) (inWalk : j ∈ walk) : F.Front (F.rank x + 1) walk b := by
  rcases member with ⟨other, member⟩ | ⟨i, way, member⟩
  · rcases Settled.split_reached inside insideJ reached with early | rfl
    · exact front_later inside other full
        (part.sticks j insideJ early b p (Or.inl ⟨other, member⟩) heldJ walk full inWalk)
    · -- one token does not wait for two vertices
      obtain ⟨walk', full', covers⟩ := (part.born b p (Or.inl ⟨other, member⟩)).exists_walk
      exact absurd (full'.front_unique
        (part.at_front b p (Or.inl ⟨other, member⟩) walk' full' covers)
        (part.at_front j p (mem_mine heldJ) walk' full' covers)) other
  · have bound := (List.getElem?_eq_some_iff.mp way).1
    by_cases single : (F.next x).length = 1
    · have inWalkX : x ∈ walk := by
        rw [carried, if_pos single] at member
        rcases Settled.split_reached inside insideJ reached with early | rfl
        · exact (part.sticks j insideJ early x p (mem_mine member) heldJ walk full inWalk).1
        · exact inWalk
      obtain ⟨i', y, way', uses⟩ := full.leaves inWalkX (by omega)
      have bound' := (List.getElem?_eq_some_iff.mp way').1
      obtain rfl : i = i' := by omega
      rw [way] at way'
      exact full.front_succ_of_uses (Option.some.inj way' ▸ uses)
    · rw [carried, if_neg single] at member
      obtain rfl := member
      have := ((settled.advance inside part).born j insideJ reached _ heldJ).2.1
      omega

theorem Partitioned.sent_retired (settled : F.Settled (F.rank x)) (inside : x ∈ F.inside)
    (part : F.Partitioned (F.rank x) (withShare share x (F.held x))) {t t' b : V} (insideT : t ∈ F.inside)
    (insideT' : t' ∈ F.inside) (less : F.rank t < F.rank t') (reached : F.rank t' < F.rank x + 1) {p q : Token V}
    (heldT : p ∈ F.held t) (heldT' : p ∈ F.held t') (member : q ∈ F.sent share x b) (i : Nat) :
    ¬ F.Below (.branch t i) q := by
  intro below
  rcases member with ⟨other, member⟩ | ⟨i', way, member⟩
  · rcases Settled.split_reached inside insideT' reached with early | rfl
    · exact part.retired t insideT t' insideT' less early p heldT heldT' b q
        (Or.inl ⟨other, member⟩) i below
    · -- a walk along the piece went through `t`, so it waits for `x`, not for `b`
      have bornQ := part.born b q (Or.inl ⟨other, member⟩)
      obtain ⟨walk, full, coversT, coversQ⟩ := settled.exists_walk_of_below below bornQ
      have front := part.sticks t insideT less t' p (mem_mine heldT') heldT walk full coversT.mem
      exact other (full.front_unique
        (part.at_front b q (Or.inl ⟨other, member⟩) walk full coversQ) front)
  · by_cases single : (F.next x).length = 1
    · rw [carried, if_pos single] at member
      exact part.retired_held settled inside insideT insideT' less reached heldT heldT' member i below
    · rw [carried, if_neg single] at member
      obtain rfl := member
      rcases Relation.ReflTransGen.cases_tail below with same | ⟨q', below', parent⟩
      · obtain ⟨rfl, _⟩ := Token.branch.inj same
        omega
      · obtain ⟨s, _, eq, _, held⟩ := parent
        obtain ⟨rfl, _⟩ := Token.branch.inj eq
        exact part.retired_held settled inside insideT insideT' less reached heldT heldT' held i below'

theorem Partitioned.advance (settled : F.Settled (F.rank x)) (inside : x ∈ F.inside)
    (part : F.Partitioned (F.rank x) (withShare share x (F.held x))) :
    F.Partitioned (F.rank x + 1) (F.sent share x) := by
  refine ⟨?_, fun b walk full front => part.sent_covered settled inside full front,
    fun b p memP q memQ walk full coversP coversQ => part.sent_alone inside memP memQ full coversP coversQ,
    fun b p member => part.sent_born inside member,
    fun j insideJ reached b p member heldJ walk full inWalk =>
      part.sent_sticks settled inside insideJ reached member heldJ full inWalk,
    fun t insideT t' insideT' less reached p heldT heldT' b q member i =>
      part.sent_retired settled inside insideT insideT' less reached heldT heldT' member i⟩
  rintro b p (⟨other, member⟩ | ⟨i, way, member⟩) walk full covers
  · exact front_later inside other full (part.at_front b p (Or.inl ⟨other, member⟩) walk full covers)
  · exact full.front_succ_of_uses (front_of_carried part way member full covers)

end Advance

section Run

theorem Settled.idle (settled : F.Settled now) (absent : ∀ x ∈ F.inside, F.rank x ≠ now) :
    F.Settled (now + 1) := by
  have early : ∀ x ∈ F.inside, F.rank x < now + 1 → F.rank x < now := by
    intro x inside reached
    have := absent x inside
    omega
  refine ⟨?_, ?_, ?_, ?_, ?_⟩
  · exact fun x inside reached => settled.covered x inside (early x inside reached)
  · exact fun x inside reached => settled.alone x inside (early x inside reached)
  · exact fun x inside reached => settled.born x inside (early x inside reached)
  · exact fun j insideJ k insideK less reached =>
      settled.sticks j insideJ k insideK less (early k insideK reached)
  · exact fun t insideT t' insideT' less p heldT heldT' x inside order reached =>
      settled.retired t insideT t' insideT' less p heldT heldT' x inside order (early x inside reached)

theorem Partitioned.idle {share : V → Set (Token V)} (part : F.Partitioned now share)
    (absent : ∀ x ∈ F.inside, F.rank x ≠ now) : F.Partitioned (now + 1) share := by
  have early : ∀ x ∈ F.inside, F.rank x < now + 1 → F.rank x < now := by
    intro x inside reached
    have := absent x inside
    omega
  have later : ∀ b walk, F.Walk walk → F.Front now walk b → F.Front (now + 1) walk b :=
    fun b walk full front => front.succ (absent b (full.mem_inside front.1))
  refine ⟨?_, ?_, part.alone, ?_, ?_, ?_⟩
  · exact fun b p member walk full covers =>
      later b walk full (part.at_front b p member walk full covers)
  · exact fun b walk full front => part.front_covered b walk full
      (front.of_succ fun c member => absent c (full.mem_inside member))
  · exact fun b p member => (part.born b p member).mono (Nat.le_succ _)
  · exact fun j insideJ reached b p member heldJ walk full inWalk => later b walk full
      (part.sticks j insideJ (early j insideJ reached) b p member heldJ walk full inWalk)
  · exact fun t insideT t' insideT' less reached =>
      part.retired t insideT t' insideT' less (early t' insideT' reached)

theorem pending_zero_mem {b : V} {p : Token V} :
    p ∈ F.pending 0 b ↔ b = F.entry ∧ p = .whole := by
  constructor
  · rintro (⟨isEntry, isWhole, _⟩ | ⟨y, _, early, _⟩)
    · exact ⟨isEntry, isWhole⟩
    · omega
  · rintro ⟨isEntry, isWhole⟩
    exact Or.inl ⟨isEntry, isWhole, Nat.zero_le _⟩

theorem settled_zero : F.Settled 0 := by
  refine ⟨?_, ?_, ?_, ?_, ?_⟩
  · intro x _ reached; omega
  · intro x _ reached; omega
  · intro x _ reached; omega
  · intro j _ k _ _ reached; omega
  · intro t _ t' _ _ p _ _ x _ _ reached; omega

theorem entry_lowest {x : V} (inside : x ∈ F.inside) : F.rank F.entry ≤ F.rank x :=
  rank_le_of_reaches arc_upward (F.from_entry x inside)

theorem partitioned_zero : F.Partitioned 0 (F.pending 0) := by
  have atEntry : ∀ walk, F.Walk walk → F.Front 0 walk F.entry := by
    intro walk full
    refine ⟨List.mem_of_mem_head? full.starts, Nat.zero_le _, fun c member _ => ?_⟩
    exact entry_lowest (full.mem_inside member)
  refine ⟨?_, ?_, ?_, ?_, ?_, ?_⟩
  · intro b p member walk full _
    obtain ⟨rfl, _⟩ := pending_zero_mem.mp member
    exact atEntry walk full
  · intro b walk full front
    exact ⟨.whole, pending_zero_mem.mpr ⟨full.front_unique front (atEntry walk full), rfl⟩, trivial⟩
  · intro b p memP q memQ _ _ _ _
    exact (pending_zero_mem.mp memP).2.trans (pending_zero_mem.mp memQ).2.symm
  · intro b p member
    obtain ⟨_, rfl⟩ := pending_zero_mem.mp member
    trivial
  · intro j _ reached; omega
  · intro t _ t' _ _ reached; omega

theorem pending_self (x : V) :
    F.pending (F.rank x) x = gathered F.inside F.next F.entry F.held x := by
  ext p
  constructor
  · rintro (⟨isEntry, isWhole, _⟩ | ⟨y, insideY, _, _, arrives⟩)
    · exact Or.inl ⟨isEntry, isWhole⟩
    · exact Or.inr ⟨y, insideY, arrives⟩
  · rintro (⟨isEntry, isWhole⟩ | ⟨y, insideY, i, way, member⟩)
    · exact Or.inl ⟨isEntry, isWhole, isEntry ▸ Nat.le_refl _⟩
    · exact Or.inr ⟨y, insideY, F.upward y insideY x (List.mem_of_getElem? way), Nat.le_refl _,
        i, way, member⟩

theorem withShare_self {share : V → Set (Token V)} (x : V) :
    withShare share x (share x) = share := by
  funext b
  ext p
  by_cases same : b = x
  · subst same; simp [withShare]
  · simp [withShare, same]

theorem sent_pending {x : V} (inside : x ∈ F.inside) :
    F.sent (F.pending (F.rank x)) x = F.pending (F.rank x + 1) := by
  funext b
  ext p
  constructor
  · rintro (⟨other, ⟨rfl, isWhole, late⟩ | ⟨y, insideY, early, late, i, way, member⟩⟩ | ⟨i, way, member⟩)
    · refine Or.inl ⟨rfl, isWhole, ?_⟩
      have : F.rank F.entry ≠ F.rank x :=
        fun same => other (F.rank_injective _ F.entry_inside x inside same)
      omega
    · have insideB := F.next_inside y insideY b (List.mem_of_getElem? way)
      have : F.rank b ≠ F.rank x := fun same => other (F.rank_injective b insideB x inside same)
      exact Or.inr ⟨y, insideY, by omega, by omega, i, way, member⟩
    · exact Or.inr ⟨x, inside, Nat.lt_succ_self _,
        F.upward x inside b (List.mem_of_getElem? way), i, way, member⟩
  · rintro (⟨rfl, isWhole, late⟩ | ⟨y, insideY, early, late, i, way, member⟩)
    · refine Or.inl ⟨?_, Or.inl ⟨rfl, isWhole, by omega⟩⟩
      rintro rfl
      omega
    · rcases Settled.split_reached inside insideY early with early | rfl
      · refine Or.inl ⟨?_, Or.inr ⟨y, insideY, early, by omega, i, way, member⟩⟩
        rintro rfl
        omega
      · exact Or.inr ⟨i, way, member⟩

theorem pending_idle (absent : ∀ x ∈ F.inside, F.rank x ≠ now) :
    F.pending (now + 1) = F.pending now := by
  funext b
  ext p
  have atEntry := absent F.entry F.entry_inside
  constructor
  · rintro (⟨isEntry, isWhole, late⟩ | ⟨y, insideY, early, late, arrives⟩)
    · exact Or.inl ⟨isEntry, isWhole, by omega⟩
    · have := absent y insideY
      exact Or.inr ⟨y, insideY, by omega, by omega, arrives⟩
  · rintro (⟨isEntry, isWhole, late⟩ | ⟨y, insideY, early, late, i, way, member⟩)
    · exact Or.inl ⟨isEntry, isWhole, by omega⟩
    · have := absent b (F.next_inside y insideY b (List.mem_of_getElem? way))
      exact Or.inr ⟨y, insideY, by omega, by omega, i, way, member⟩

theorem Partitioned.trades (settled : F.Settled now) {x : V} (isNow : F.rank x = now)
    {share : V → Set (Token V)} {before after : Set (Token V)}
    (part : F.Partitioned now (withShare share x before))
    (traded : Relation.ReflTransGen (TradedBack F.inside F.next F.rank F.held x) before after) :
    F.Partitioned now (withShare share x after) := by
  induction traded with
  | refl => exact part
  | tail _ step ih => exact ih.trade settled isNow step

theorem run : ∀ now, F.Settled now ∧ F.Partitioned now (F.pending now) := by
  intro now
  induction now with
  | zero => exact ⟨settled_zero, partitioned_zero⟩
  | succ now ih =>
      obtain ⟨settled, part⟩ := ih
      by_cases busy : ∃ x ∈ F.inside, F.rank x = now
      · obtain ⟨x, inside, rfl⟩ := busy
        have gatheredPart : F.Partitioned (F.rank x) (withShare (F.pending (F.rank x)) x
            (gathered F.inside F.next F.entry F.held x)) := by
          rw [← pending_self x, withShare_self]
          exact part
        have heldPart := gatheredPart.trades settled rfl (F.trades x inside)
        exact ⟨settled.advance inside heldPart,
          sent_pending inside ▸ heldPart.advance settled inside⟩
      · have absent : ∀ x ∈ F.inside, F.rank x ≠ now :=
          fun x inside same => busy ⟨x, inside, same⟩
        exact ⟨settled.idle absent, (pending_idle absent).symm ▸ part.idle absent⟩

end Run

section Results

/-- A walk goes through a vertex if and only if something held there covers it. -/
theorem mem_walk_iff_covered {x : V} (inside : x ∈ F.inside) {walk : List V}
    (full : F.Walk walk) : x ∈ walk ↔ ∃ p ∈ F.held x, F.Covers walk p :=
  (run (F.rank x + 1)).1.covered x inside (Nat.lt_succ_self _) walk full

theorem exists_walk_of_below {p q : Token V} (below : F.Below p q) (born : F.Born now q) :
    ∃ walk, F.Walk walk ∧ F.Covers walk p ∧ F.Covers walk q :=
  (run now).1.exists_walk_of_below below born

/-- Two breaks of one token: nothing broken from the earlier one is left when
the later one happens, so a walk along the first can go on along the second. -/
theorem exists_walk_of_breaks_ordered {t t' : V} (insideT : t ∈ F.inside)
    (insideT' : t' ∈ F.inside) (less : F.rank t < F.rank t') {p : Token V}
    (heldT : p ∈ F.held t) (heldT' : p ∈ F.held t') {i i' : Nat} {d d' : Token V}
    (below : F.Below (.branch t i) d) (below' : F.Below (.branch t' i') d')
    (born : F.Born now d) (born' : F.Born now d') :
    ∃ walk, F.Walk walk ∧ F.Covers walk d ∧ F.Covers walk d' := by
  obtain ⟨settled, _⟩ := run (F := F) now
  have bornT' := (settled.born_of_below below' born').1
  have early : F.birth d ≤ F.rank t' := by
    rcases Relation.ReflTransGen.cases_tail below with same | ⟨q, belowQ, parent⟩
    · rw [same]
      exact less
    · obtain ⟨s, j, rfl, insideS, heldQ⟩ := parent
      by_contra late
      have order : F.rank t' ≤ F.rank s := by
        simp only [birth] at late
        omega
      exact settled.retired t insideT t' insideT' less p heldT heldT' s insideS order
        born.2.1 q heldQ i belowQ
  obtain ⟨walk, full, coversT, coversD⟩ := settled.exists_walk_of_below below born
  have through := settled.sticks t insideT t' insideT' less bornT'.2.1 p heldT heldT' walk full
    coversT.mem
  obtain ⟨before, after, rfl⟩ := List.append_of_mem through
  have way : (F.next t')[i']? = some ((F.next t').get ⟨i', bornT'.2.2.1⟩) :=
    List.getElem?_eq_getElem bornT'.2.2.1
  obtain ⟨after', full'⟩ := Walk.exists_leaving full way
  have stable := (stableFrom_covers (F := F) d).mono early
  exact settled.meets stable below' born' (Nat.le_succ _)
    ⟨_, full', stable before t' after _ full full' (Nat.le_refl _) coversD,
      _, way, before, after', rfl⟩

theorem exists_walk_of_breaks {t t' : V} (insideT : t ∈ F.inside) (insideT' : t' ∈ F.inside)
    (distinct : t ≠ t') {p : Token V} (heldT : p ∈ F.held t) (heldT' : p ∈ F.held t')
    {i i' : Nat} {d d' : Token V} (below : F.Below (.branch t i) d)
    (below' : F.Below (.branch t' i') d') (born : F.Born now d) (born' : F.Born now d') :
    ∃ walk, F.Walk walk ∧ F.Covers walk d ∧ F.Covers walk d' := by
  rcases Nat.lt_trichotomy (F.rank t) (F.rank t') with less | same | greater
  · exact exists_walk_of_breaks_ordered insideT insideT' less heldT heldT' below below' born born'
  · exact absurd (F.rank_injective t insideT t' insideT' same) distinct
  · obtain ⟨walk, full, coversD', coversD⟩ := exists_walk_of_breaks_ordered insideT' insideT greater
      heldT' heldT below' below born' born
    exact ⟨walk, full, coversD, coversD'⟩

/-- Vertices that hold tokens covering one walk are joined by a directed path. -/
theorem joined_of_common_walk {x y : V} (insideX : x ∈ F.inside) (insideY : y ∈ F.inside)
    {walk : List V} (full : F.Walk walk) {p q : Token V} (heldP : p ∈ F.held x)
    (heldQ : q ∈ F.held y) (coversP : F.Covers walk p) (coversQ : F.Covers walk q) :
    Relation.ReflTransGen F.Arc x y ∨ Relation.ReflTransGen F.Arc y x :=
  FullWalk.comparable full ((mem_walk_iff_covered insideX full).mpr ⟨p, heldP, coversP⟩)
    ((mem_walk_iff_covered insideY full).mpr ⟨q, heldQ, coversQ⟩)

end Results

end Ahir.Graph.TokenFlow
