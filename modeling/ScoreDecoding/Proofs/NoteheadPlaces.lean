import ScoreDecoding.Measure.Collision
import Mathlib.Data.Finset.Insert
import Mathlib.Data.List.Flatten
import Mathlib.Data.List.Nodup
import Mathlib.Data.List.Perm.Basic

/-!
# When noteheads collide

A collision is a place that two noteheads claim. Who claims which places can be said of each event alone, without an
order among the events and without a list of places that have been seen.

- `takePlaces?` goes through the events with the set of places that are taken, up to the first place that is taken
  already; this is the same as a repetition in the list of all claims (`hasCollision_eq_isNone`);
- `Sourced` lists have one entry for each source of a relation, so that an entry occurs again exactly if two sources
  give it (`Sourced.not_nodup_iff`);
- `Event.Claims` and `Claims` say who claims a place: a pitch of an event, or what is around the head of a rest;
- `hasCollision_iff_claims`: there is a collision exactly if two claims are to one place, so the order of the voices and
  of their terms does not matter; and rests that count hide no collision.
-/

namespace ScoreDecoding.Measure

/-! ## One place after the other -/

section Places

variable {places : List Place} {taken : Finset Place}

/-- Takes a place, if it is free. -/
def takePlace? (taken : Finset Place) (place : Place) : Option (Finset Place) :=
  if place ∈ taken then none else some (insert place taken)

/-- Takes the places of an event, if all of them are free. -/
def Event.takePlaces? (restsCount : Bool) (taken : Finset Place) (e : Event) : Option (Finset Place) :=
  if e.grace || e.space then some taken
  else if restsCount && e.rest then
    match e.chord.head? with
    | some p => (restNotes p.note).foldlM (fun taken note =>
        [StemDirection.free, .up, .down].foldlM (fun taken stem => takePlace? taken ⟨e.staff, e.tick, note, stem⟩)
          taken) taken
    | none => some taken
  else match e.stemDirection with
    | some stem => e.chord.foldlM (fun taken p => takePlace? taken ⟨e.staff, e.tick, p.note, stem⟩) taken
    | none => some taken

/-- Takes the places of all events in their order, and gives up at the first place that is taken already. -/
def takePlaces? (restsCount : Bool) (m : Measure) : Option (Finset Place) :=
  m.voices.foldlM (fun taken v => v.events.foldlM (Event.takePlaces? restsCount) taken) ∅

/-- Places can be taken one after the other exactly if they are free and none of them occurs again. -/
theorem isSome_foldlM_takePlace? :
    (places.foldlM takePlace? taken).isSome = true ↔ places.Nodup ∧ ∀ place ∈ places, place ∉ taken := by
  induction places generalizing taken with
  | nil => simp [pure]
  | cons place places ih =>
    rw [List.foldlM_cons, takePlace?]
    by_cases htaken : place ∈ taken
    · rw [if_pos htaken]
      exact iff_of_false Bool.false_ne_true fun h => h.2 place List.mem_cons_self htaken
    · rw [if_neg htaken]
      show (places.foldlM takePlace? (insert place taken)).isSome = true ↔ _
      rw [ih, List.nodup_cons, List.forall_mem_cons]
      -- the place that was just taken must not come again
      constructor
      · rintro ⟨hnodup, hfree⟩
        refine ⟨⟨fun hmem => hfree place hmem (Finset.mem_insert_self place taken), hnodup⟩, htaken, fun other ho => ?_⟩
        exact fun hmem => hfree other ho (Finset.mem_insert_of_mem hmem)
      · rintro ⟨⟨hnew, hnodup⟩, -, hfree⟩
        refine ⟨hnodup, fun other ho hmem => ?_⟩
        rcases Finset.mem_insert.1 hmem with rfl | hmem
        · exact hnew ho
        · exact hfree other ho hmem

/-- A loop of loops is one loop over the joined list. -/
theorem foldlM_flatMap {α β σ : Type} (step : σ → β → Option σ) (f : α → List β) (l : List α) (s : σ) :
    (l.flatMap f).foldlM step s = l.foldlM (fun s a => (f a).foldlM step s) s := by
  induction l generalizing s with
  | nil => rfl
  | cons a l ih =>
    rw [List.flatMap_cons, List.foldlM_append, List.foldlM_cons]
    simp only [ih]

theorem Event.takePlaces?_eq (restsCount : Bool) (taken : Finset Place) (e : Event) :
    e.takePlaces? restsCount taken = (e.claims restsCount).foldlM takePlace? taken := by
  unfold Event.takePlaces? Event.claims
  split
  · rfl
  split
  · cases e.chord.head? with
    | none => rfl
    | some p =>
      show _ = (e.restClaims p.note).foldlM takePlace? taken
      unfold Event.restClaims
      simp only [foldlM_flatMap, List.foldlM_map]
  · unfold Event.chordClaims
    cases e.stemDirection with
    | none => rfl
    | some stem => exact (List.foldlM_map (m := Option)).symm

/-- Taking the places of all events is taking those of the list of claims. -/
theorem takePlaces?_eq (restsCount : Bool) (m : Measure) :
    m.takePlaces? restsCount = (m.claims restsCount).foldlM takePlace? ∅ := by
  have hevent : Event.takePlaces? restsCount = fun taken e => (e.claims restsCount).foldlM takePlace? taken := by
    funext taken e
    exact e.takePlaces?_eq restsCount taken
  unfold takePlaces? claims
  simp only [foldlM_flatMap, hevent]

/-- A place is claimed twice exactly if one is found taken. -/
theorem hasCollision_eq_isNone (restsCount : Bool) (m : Measure) :
    m.hasCollision restsCount = (m.takePlaces? restsCount).isNone := by
  have hfree : (m.takePlaces? restsCount).isSome = true ↔ (m.claims restsCount).Nodup := by
    rw [takePlaces?_eq, isSome_foldlM_takePlace?]
    exact and_iff_left fun place _ => Finset.notMem_empty place
  rw [Bool.eq_iff_iff, hasCollision, hasRepetition_iff, ← hfree, Option.not_isSome_iff_eq_none,
    Option.isNone_iff_eq_none]

end Places

/-! ## Lists with sources -/

section Sources

variable {ι κ α β : Type} {R : ι → β → Prop} {l : List α}

/-- A list has one entry for each source of a relation. -/
def Sourced (R : ι → β → Prop) (l : List β) : Prop :=
  ∃ ps : List (ι × β), (ps.map Prod.fst).Nodup ∧ ps.map Prod.snd = l ∧ ∀ i b, (i, b) ∈ ps ↔ R i b

/-- An entry occurs again exactly if it has two sources. -/
theorem Sourced.not_nodup_iff {l : List β} (h : Sourced R l) : ¬ l.Nodup ↔ ∃ i j b, i ≠ j ∧ R i b ∧ R j b := by
  obtain ⟨ps, hsources, rfl, hmem⟩ := h
  rw [List.nodup_map_iff_inj_on (hsources.of_map _)]
  constructor
  · intro h
    push Not at h
    obtain ⟨⟨i, b⟩, hi, ⟨j, b'⟩, hj, rfl, hne⟩ := h
    exact ⟨i, j, b, fun hij => hne (hij ▸ rfl), (hmem i b).1 hi, (hmem j b).1 hj⟩
  · rintro ⟨i, j, b, hij, hi, hj⟩ h
    exact hij (congrArg Prod.fst (h (i, b) ((hmem i b).2 hi) (j, b) ((hmem j b).2 hj) rfl))

/-- Without a source there is no entry. -/
theorem Sourced.empty (h : ∀ i b, ¬ R i b) : Sourced R [] :=
  ⟨[], List.nodup_nil, rfl, fun i b => iff_of_false List.not_mem_nil (h i b)⟩

/-- The indices of a list are sources of its entries. -/
theorem sourced_getElem? (l : List β) : Sourced (fun (i : Nat) b => l[i]? = some b) l := by
  refine ⟨l.zipIdx.map Prod.swap, ?_, ?_, fun i b => ?_⟩
  · rw [List.map_map]
    show (l.zipIdx.map Prod.snd).Nodup
    rw [List.zipIdx_map_snd]
    exact List.nodup_range'
  · rw [List.map_map]
    exact List.zipIdx_map_fst 0 l
  · simp [List.mem_zipIdx_iff_getElem?]

/-- Sources may be named otherwise. -/
theorem Sourced.rename {S : κ → β → Prop} {l : List β} {f : ι → κ} (h : Sourced R l) (hf : Function.Injective f)
    (hS : ∀ k b, S k b ↔ ∃ i, f i = k ∧ R i b) : Sourced S l := by
  obtain ⟨ps, hsources, rfl, hmem⟩ := h
  refine ⟨ps.map fun p => (f p.1, p.2), ?_, List.map_map .., fun k b => ?_⟩
  · rw [List.map_map, show (Prod.fst ∘ fun p : ι × β => (f p.1, p.2)) = f ∘ Prod.fst from rfl, ← List.map_map]
    exact hsources.map hf
  · rw [hS]
    simp [hmem, and_comm]

/-- The entries of joined lists have a source of the list and one within it. -/
theorem Sourced.flatMap {R : ι → α → Prop} {S : α → κ → β → Prop} {f : α → List β} (h : Sourced R l)
    (hf : ∀ a ∈ l, Sourced (S a) (f a)) :
    Sourced (fun (k : ι × κ) b => ∃ a, R k.1 a ∧ S a k.2 b) (l.flatMap f) := by
  obtain ⟨ps, hsources, rfl, hmem⟩ := h
  choose! qs hqs hsnd hS using hf
  have hin : ∀ {p : ι × α}, p ∈ ps → p.2 ∈ ps.map Prod.snd := List.mem_map_of_mem
  refine ⟨ps.flatMap fun p => (qs p.2).map fun q => ((p.1, q.1), q.2), ?_, ?_, fun ⟨i, j⟩ b => ?_⟩
  · rw [List.map_flatMap, List.nodup_flatMap]
    constructor
    · intro p hp
      rw [List.map_map, show (Prod.fst ∘ fun q : κ × β => ((p.1, q.1), q.2)) = (fun j => (p.1, j)) ∘ Prod.fst from rfl,
        ← List.map_map]
      exact (hqs p.2 (hin hp)).map fun j j' hj => (Prod.mk.inj hj).2
    · refine (List.pairwise_map.1 hsources).imp fun hne => ?_
      simp only [Function.onFun, List.map_map, List.disjoint_left, List.mem_map, Function.comp_apply, not_exists,
        not_and]
      rintro _ ⟨q, -, rfl⟩ q' - he
      exact hne (Prod.mk.inj he).1.symm
  · rw [List.map_flatMap, List.flatMap_map]
    refine List.flatMap_congr fun p hp => ?_
    rw [List.map_map]
    exact hsnd p.2 (hin hp)
  · simp only [List.mem_flatMap, List.mem_map, Prod.mk.injEq, Prod.exists]
    constructor
    · rintro ⟨i', a, hp, j', b', hq, ⟨rfl, rfl⟩, rfl⟩
      exact ⟨a, (hmem i' a).1 hp, (hS a (hin hp) j' b').1 hq⟩
    · rintro ⟨a, hi, hj⟩
      have hp := (hmem i a).2 hi
      exact ⟨i, a, hp, j, b, (hS a (hin hp) j b).2 hj, ⟨rfl, rfl⟩, rfl⟩

end Sources

/-! ## Who claims a place -/

/-- Neither grace notes nor invisible rests claim anything. -/
def Event.Counts (e : Event) : Prop := e.grace = false ∧ e.space = false

/-- A rest with a pitch, if rests count. -/
def Event.Widens (restsCount : Bool) (e : Event) : Prop := restsCount = true ∧ e.rest = true ∧ e.chord ≠ []

/-- What of an event claims a place: a pitch by its index, or a distance from the head of a rest with a stem. -/
inductive Claimant
  | pitch (index : Nat)
  | around (distance : Int) (stem : StemDirection)
  deriving DecidableEq

/-- An event claims a place. If it has a stem direction, each of its pitches claims its own note; but a rest that counts
claims the notes up to two away from its head, for every stem direction. -/
inductive Event.Claims (restsCount : Bool) (e : Event) : Claimant → Place → Prop
  | pitch {i : Nat} {p : Pitch} {stem : StemDirection} : e.Counts → ¬ e.Widens restsCount → e.chord[i]? = some p →
      e.stemDirection = some stem → Claims restsCount e (.pitch i) ⟨e.staff, e.tick, p.note, stem⟩
  | around {p : Pitch} {distance : Int} {note : Int32} {stem : StemDirection} : e.Counts → e.Widens restsCount →
      e.chord.head? = some p → -2 ≤ distance → distance ≤ 2 → note.toInt = p.note.toInt + distance →
      Claims restsCount e (.around distance stem) ⟨e.staff, e.tick, note, stem⟩

/-- A place is claimed in a measure by a claimant of the event with an index in the voice with an index. -/
def Claims (restsCount : Bool) (m : Measure) (who : Nat × Nat × Claimant) (place : Place) : Prop :=
  ∃ v e, m.voices[who.1]? = some v ∧ v.events[who.2.1]? = some e ∧ e.Claims restsCount who.2.2 place

/-- All notes are two away from the ends of their range. -/
def Pitch.Within (p : Pitch) : Prop :=
  Int32.minValue.toInt + 2 ≤ p.note.toInt ∧ p.note.toInt ≤ Int32.maxValue.toInt - 2

variable {e : Event} {v : Voice} {m n : Measure} {restsCount : Bool}

/-- The notes around the head of a rest, each at its own distance. -/
theorem sourced_restNotes {p : Pitch} (hp : p.Within) :
    Sourced (fun distance note => -2 ≤ distance ∧ distance ≤ 2 ∧ note.toInt = p.note.toInt + distance)
      (restNotes p.note) := by
  obtain ⟨hlow, hhigh⟩ := hp
  have hmin : Int32.minValue.toInt = -2147483648 := rfl
  have hmax : Int32.maxValue.toInt = 2147483647 := rfl
  -- so near its head no note is out of range
  have hsub : ∀ d : Int32, 0 ≤ d.toInt → d.toInt ≤ 2 → (p.note - d).toInt = p.note.toInt - d.toInt := by
    intro d hd hd'
    rw [Int32.toInt_sub]
    exact Int.bmod_eq_of_le (by omega) (by omega)
  have hadd : ∀ d : Int32, 0 ≤ d.toInt → d.toInt ≤ 2 → (p.note + d).toInt = p.note.toInt + d.toInt := by
    intro d hd hd'
    rw [Int32.toInt_add]
    exact Int.bmod_eq_of_le (by omega) (by omega)
  have hsub₁ : (p.note - 1).toInt = p.note.toInt - 1 := hsub 1 (by decide) (by decide)
  have hsub₂ : (p.note - 2).toInt = p.note.toInt - 2 := hsub 2 (by decide) (by decide)
  have hadd₁ : (p.note + 1).toInt = p.note.toInt + 1 := hadd 1 (by decide) (by decide)
  have hadd₂ : (p.note + 2).toInt = p.note.toInt + 2 := hadd 2 (by decide) (by decide)
  refine ⟨[(-2, p.note - 2), (-1, p.note - 1), (0, p.note), (1, p.note + 1), (2, p.note + 2)],
    (by decide : [(-2 : Int), -1, 0, 1, 2].Nodup), rfl, fun distance note => ?_⟩
  simp only [List.mem_cons, Prod.mk.injEq, List.not_mem_nil, or_false, ← Int32.toInt_inj, hsub₁, hsub₂, hadd₁, hadd₂]
  omega

theorem sourced_stems (staff : UInt8) (tick : Int64) (note : Int32) :
    Sourced (fun stem place => place = ⟨staff, tick, note, stem⟩)
      ([StemDirection.free, .up, .down].map fun stem => (⟨staff, tick, note, stem⟩ : Place)) := by
  refine ⟨[StemDirection.free, .up, .down].map fun stem => (stem, ⟨staff, tick, note, stem⟩), ?_, ?_,
    fun stem place => ?_⟩
  · rw [List.map_map]
    exact (by decide : [StemDirection.free, .up, .down].Nodup)
  · rw [List.map_map]
    rfl
  · cases stem <;> simp

/-- What is around a rest is claimed by each distance and stem. -/
theorem sourced_restClaims {p : Pitch} (hcounts : e.Counts) (hwidens : e.Widens restsCount)
    (hhead : e.chord.head? = some p) (hp : p.Within) : Sourced (e.Claims restsCount) (e.restClaims p.note) := by
  have haround := (sourced_restNotes hp).flatMap fun note _ => sourced_stems e.staff e.tick note
  refine haround.rename (f := fun k => .around k.1 k.2) (fun k k' hk => ?_) fun who place => ⟨fun h => ?_, ?_⟩
  · exact Prod.ext (Claimant.around.inj hk).1 (Claimant.around.inj hk).2
  · cases h with
    | pitch _ hno => exact absurd hwidens hno
    | @around p' distance note stem _ _ hp' hlow hhigh hnote =>
      rw [hhead] at hp'
      cases hp'
      exact ⟨(distance, stem), rfl, note, ⟨hlow, hhigh, hnote⟩, rfl⟩
  · rintro ⟨⟨distance, stem⟩, rfl, note, ⟨hlow, hhigh, hnote⟩, rfl⟩
    exact .around hcounts hwidens hhead hlow hhigh hnote

/-- The places of a chord are claimed by its pitches. -/
theorem sourced_chordClaims (hcounts : e.Counts) (hno : ¬ e.Widens restsCount) :
    Sourced (e.Claims restsCount) e.chordClaims := by
  unfold Event.chordClaims
  split
  · rename_i stem hstem
    refine (sourced_getElem? _).rename (f := .pitch) (fun i j h => Claimant.pitch.inj h) fun who place =>
      ⟨fun h => ?_, ?_⟩
    · cases h with
      | @pitch i p stem' _ _ hi hstem' =>
        rw [hstem] at hstem'
        cases hstem'
        exact ⟨i, rfl, by rw [List.getElem?_map, hi]; rfl⟩
      | around _ hyes => exact absurd hyes hno
    · rintro ⟨i, rfl, hi⟩
      rw [List.getElem?_map] at hi
      obtain ⟨p, hp, rfl⟩ := Option.map_eq_some_iff.1 hi
      exact .pitch hcounts hno hp hstem
  · rename_i hstem
    refine .empty fun who place h => ?_
    cases h with
    | pitch _ _ _ hstem' =>
      rw [hstem] at hstem'
      cases hstem'
    | around _ hyes => exact absurd hyes hno

/-- The places that an event claims are those of its claimants. -/
theorem sourced_event (restsCount : Bool) (he : ∀ p ∈ e.chord, p.Within) :
    Sourced (e.Claims restsCount) (e.claims restsCount) := by
  unfold Event.claims
  split
  · rename_i hsilent
    refine .empty fun who place h => ?_
    have hcounts : e.Counts := by cases h <;> assumption
    simp [hcounts.1, hcounts.2] at hsilent
  rename_i hcounts
  have hcounts : e.Counts := by simpa [Event.Counts] using hcounts
  split
  · rename_i hrests
    simp only [Bool.and_eq_true] at hrests
    cases hhead : e.chord.head? with
    | none =>
      have hchord : e.chord = [] := List.head?_eq_none_iff.1 hhead
      refine .empty fun who place h => ?_
      cases h with
      | pitch _ _ hi => simp [hchord] at hi
      | around _ _ hp => simp [hchord] at hp
    | some p =>
      have hwidens : e.Widens restsCount := ⟨hrests.1, hrests.2, List.ne_nil_of_mem (List.mem_of_head? hhead)⟩
      exact sourced_restClaims hcounts hwidens hhead (he p (List.mem_of_head? hhead))
  · rename_i hrests
    exact sourced_chordClaims hcounts fun h => hrests (by simp [h.1, h.2.1])

/-! ## Collisions -/

/-- The places that a measure claims are those of its claimants. -/
theorem sourced_claims (hm : ∀ v ∈ m.voices, ∀ e ∈ v.events, ∀ p ∈ e.chord, p.Within) :
    Sourced (m.Claims restsCount) (m.claims restsCount) := by
  have hvoices := (sourced_getElem? m.voices).flatMap fun v hv =>
    (sourced_getElem? v.events).flatMap fun e he => sourced_event restsCount (hm v hv e he)
  refine hvoices.rename (f := id) Function.injective_id fun who place => ⟨?_, ?_⟩
  · rintro ⟨v, e, hv, he, hclaims⟩
    exact ⟨who, rfl, v, hv, e, he, hclaims⟩
  · rintro ⟨_, rfl, v, hv, e, he, hclaims⟩
    exact ⟨v, e, hv, he, hclaims⟩

/-- A measure has the same terms in its voices as another one, with the voices and the terms of each in any order. -/
def Reordered (m n : Measure) : Prop :=
  ∃ vs, List.Forall₂ (fun v w : Voice => v.terms.Perm w.terms) m.voices vs ∧ vs.Perm n.voices

theorem perm_events {w : Voice} (h : v.terms.Perm w.terms) : v.events.Perm w.events := h.filterMap _

/-- The order of voices and terms is that of the claims. -/
theorem Reordered.perm_claims (h : m.Reordered n) : (m.claims restsCount).Perm (n.claims restsCount) := by
  obtain ⟨vs, hterms, hvoices⟩ := h
  refine .trans ?_ (hvoices.flatMap_right _)
  clear hvoices
  unfold claims
  generalize m.voices = us at hterms
  induction hterms with
  | nil => exact .refl _
  | cons hv _ ih =>
    rw [List.flatMap_cons, List.flatMap_cons]
    exact ((perm_events hv).flatMap_right _).append ih

/-- The place of the head of a rest is around it. -/
theorem mem_restClaims (e : Event) (head : Int32) (stem : StemDirection) :
    ⟨e.staff, e.tick, head, stem⟩ ∈ e.restClaims head := by
  refine List.mem_flatMap.2 ⟨head, by simp [restNotes], List.mem_map.2 ⟨stem, ?_, rfl⟩⟩
  cases stem <;> decide

/-- A rest with one pitch claims its own place too if rests count. -/
theorem claims_sublist (he : e.Counts → e.rest = true → e.chord.length ≤ 1) :
    (e.claims false).Sublist (e.claims true) := by
  unfold Event.claims
  split
  · exact List.Sublist.refl []
  rename_i hcounts
  simp only [Bool.false_and, Bool.true_and, Bool.false_eq_true, if_false]
  split
  · rename_i hrest
    have hone : e.chord.length ≤ 1 := he (by simpa [Event.Counts] using hcounts) hrest
    unfold Event.chordClaims
    split
    · rename_i stem _
      match hchord : e.chord with
      | [] => exact List.nil_sublist _
      | [p] => exact List.singleton_sublist.2 (mem_restClaims e p.note stem)
      | _ :: _ :: _ =>
        rw [hchord, List.length_cons, List.length_cons] at hone
        omega
    · exact List.nil_sublist _
  · exact List.Sublist.refl _

/-- **Noteheads collide exactly if two claims are to one place**; so the order of the voices and of the terms in a voice
does not matter. The first such place is found by taking the places one after the other. If all rests have one pitch at
most, noteheads that collide do so as well if rests count. -/
theorem hasCollision_iff_claims (hm : ∀ v ∈ m.voices, ∀ e ∈ v.events, ∀ p ∈ e.chord, p.Within) :
    (∀ restsCount, m.hasCollision restsCount = (m.takePlaces? restsCount).isNone) ∧
    (∀ restsCount, m.hasCollision restsCount = true ↔
      ∃ who who' place, who ≠ who' ∧ m.Claims restsCount who place ∧ m.Claims restsCount who' place) ∧
    (∀ restsCount n, m.Reordered n → n.hasCollision restsCount = m.hasCollision restsCount) ∧
    ((∀ v ∈ m.voices, ∀ e ∈ v.events, e.Counts → e.rest = true → e.chord.length ≤ 1) →
      m.hasCollision false = true → m.hasCollision true = true) := by
  refine ⟨fun restsCount => hasCollision_eq_isNone restsCount m,
    fun restsCount => hasRepetition_iff.trans (sourced_claims hm).not_nodup_iff, fun restsCount n h => ?_,
    fun hrests h => ?_⟩
  · rw [Bool.eq_iff_iff]
    exact hasRepetition_iff.trans ((not_congr h.perm_claims.nodup_iff.symm).trans hasRepetition_iff.symm)
  · have hsublist : (m.claims false).Sublist (m.claims true) := List.Sublist.flatMap_right _ fun v hv =>
      List.Sublist.flatMap_right _ fun e he => claims_sublist (hrests v hv e he)
    exact hasRepetition_iff.2 (mt (fun hnodup => hnodup.sublist hsublist) (hasRepetition_iff.1 h))

/-- A rest on the place of a notehead in another voice, beside a grace note and a clef. -/
def restOnNote : Measure where
  voices := [
    { terms := [
      .event { chord := [{ letter := .pitchC, note := 58 }], grace := true, stemDirection := some .up },
      .event { chord := [{ letter := .pitchC, note := 60 }], rest := true, stemDirection := some .up }] },
    { terms := [
      .context { context := .clef .clefG },
      .event {
        chord := [{ letter := .pitchE, note := 64 }, { letter := .pitchC, note := 60 }]
        stemDirection := some .up }] }]

/-- The same voices with the second one first, and its terms the other way round. -/
def noteUnderRest : Measure where
  voices := restOnNote.voices.reverse.map fun v => { v with terms := v.terms.reverse }

/-- They collide whether rests count or not, in this order and in the other. -/
theorem hasCollision_iff_claims_restOnNote :
    (∀ v ∈ restOnNote.voices, ∀ e ∈ v.events, ∀ p ∈ e.chord, p.Within) ∧
      (∀ v ∈ restOnNote.voices, ∀ e ∈ v.events, e.Counts → e.rest = true → e.chord.length ≤ 1) ∧
      restOnNote.Reordered noteUnderRest ∧ restOnNote.hasCollision false = true ∧
      restOnNote.hasCollision true = true ∧ noteUnderRest.hasCollision true = true ∧
      restOnNote.takePlaces? true = none ∧
      ∃ who who' place, who ≠ who' ∧ restOnNote.Claims false who place ∧ restOnNote.Claims false who' place := by
  have hwithin : ∀ v ∈ restOnNote.voices, ∀ e ∈ v.events, ∀ p ∈ e.chord, p.Within := by
    unfold Pitch.Within
    decide
  have hrests : ∀ v ∈ restOnNote.voices, ∀ e ∈ v.events, e.Counts → e.rest = true → e.chord.length ≤ 1 := by
    unfold Event.Counts
    decide
  have hreordered : restOnNote.Reordered noteUnderRest :=
    ⟨restOnNote.voices.map fun v => { v with terms := v.terms.reverse },
      List.forall₂_map_right_iff.2 (List.forall₂_same.2 fun v _ => (List.reverse_perm v.terms).symm),
      (List.reverse_perm _).symm.map _⟩
  have hcollision : restOnNote.hasCollision false = true := by decide
  obtain ⟨htaken, hclaims, horder, hmore⟩ := hasCollision_iff_claims hwithin
  have hcounting := hmore hrests hcollision
  exact ⟨hwithin, hrests, hreordered, hcollision, hcounting, (horder true _ hreordered).trans hcounting,
    Option.isNone_iff_eq_none.1 ((htaken true).symm.trans hcounting), (hclaims false).1 hcollision⟩

end ScoreDecoding.Measure
