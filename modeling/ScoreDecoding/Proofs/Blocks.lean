import Mathlib.Data.List.SplitBy

/-!
# Joined lists that can be taken apart

Lists are joined, with nothing between them. They are known from the whole if each of them shows by itself where it
begins and ends, or if each has elements of a class of its own.

- `IsBlock` lists have no place inside where one list might end and another one begin, so that blocks are known from
  what they join to (`eq_of_flatten_eq`, `map_eq_of_flatMap_eq`);
- `eq_of_flatMap_eq` is about a fixed order of parts, each with its own class.
-/

namespace ScoreDecoding

variable {α β γ : Type} {opens closes : α → Bool} {l m : List α} {a : α}

/-- A list begins with an element that may open one and ends with an element that may close one, and nowhere inside an
element that may close is followed by one that may open. -/
structure IsBlock (opens closes : α → Bool) (l : List α) : Prop where
  ne_nil : l ≠ []
  head_opens : ∀ x ∈ l.head?, opens x = true
  last_closes : ∀ x ∈ l.getLast?, closes x = true
  whole : l.IsChain fun a b => !(closes a && opens b)

/-- A list is whole if nothing closes before some element, and nothing opens after it. -/
theorem isBlock_append_cons (hl : ∀ x ∈ l, closes x = false) (hm : ∀ y ∈ m, opens y = false)
    (hhead : ∀ x ∈ (l ++ [a]).head?, opens x = true) (hlast : ∀ x ∈ (a :: m).getLast?, closes x = true) :
    IsBlock opens closes (l ++ a :: m) where
  ne_nil := by simp
  head_opens x hx := by
    refine hhead x ?_
    cases l with
    | nil => exact hx
    | cons => exact hx
  last_closes x hx := by
    rw [List.getLast?_append_of_ne_nil _ (List.cons_ne_nil a m)] at hx
    exact hlast x hx
  whole := by
    refine List.Pairwise.isChain (List.pairwise_append.2 ⟨?_, List.pairwise_cons.2 ⟨?_, ?_⟩, ?_⟩)
    · exact List.pairwise_of_forall_mem_list fun x hx y _ => by rw [hl x hx]; rfl
    · intro y hy
      rw [hm y hy, Bool.and_false]
      rfl
    · exact List.pairwise_of_forall_mem_list fun x _ y hy => by rw [hm y hy, Bool.and_false]; rfl
    · intro x hx y _
      rw [hl x hx]
      rfl

theorem isBlock_singleton (hopens : opens a = true) (hcloses : closes a = true) : IsBlock opens closes [a] := by
  refine isBlock_append_cons (l := []) (m := []) nofun nofun (fun x hx => ?_) fun x hx => ?_
  · obtain rfl : a = x := by simpa using hx
    exact hopens
  · obtain rfl : a = x := by simpa using hx
    exact hcloses

theorem head_append_cons (hl : ∀ x ∈ l, opens x = true) (ha : opens a = true) :
    ∀ x ∈ (l ++ a :: m).head?, opens x = true := by
  intro x hx
  cases l with
  | nil =>
    obtain rfl : a = x := by simpa using hx
    exact ha
  | cons y l =>
    obtain rfl : y = x := by simpa using hx
    exact hl y List.mem_cons_self

/-! ## Taking lists apart -/

/-- **Blocks are known from what they join to.** -/
theorem eq_of_flatten_eq {ls ms : List (List α)} (hls : ∀ l ∈ ls, IsBlock opens closes l)
    (hms : ∀ l ∈ ms, IsBlock opens closes l) (h : ls.flatten = ms.flatten) : ls = ms := by
  have cut : ∀ {ls : List (List α)}, (∀ l ∈ ls, IsBlock opens closes l) →
      ls.flatten.splitBy (fun a b => !(closes a && opens b)) = ls := by
    intro ls hls
    refine List.splitBy_flatten (fun hnil => (hls _ hnil).ne_nil rfl) (fun l hl => (hls l hl).whole) ?_
    refine List.Pairwise.isChain (List.pairwise_of_forall_mem_list fun l hl m hm => ?_)
    refine ⟨(hls l hl).ne_nil, (hls m hm).ne_nil, ?_⟩
    rw [(hls l hl).last_closes _ (List.getLast?_eq_some_getLast _), (hls m hm).head_opens _ (List.head?_eq_some_head _)]
    rfl
  rw [← cut hls, h, cut hms]

/-- A part with a class of its own is what the whole has of this class. -/
theorem filter_flatMap_eq [DecidableEq β] {f : β → List α} {g : α → Option β} (hf : ∀ b, ∀ x ∈ f b, g x = some b)
    {bs : List β} (hn : bs.Nodup) {b : β} (hb : b ∈ bs) : (bs.flatMap f).filter (fun x => g x = some b) = f b := by
  have other : ∀ {c : β}, c ≠ b → (f c).filter (fun x => g x = some b) = [] := by
    intro c hc
    refine List.filter_eq_nil_iff.2 fun x hx => ?_
    rw [hf c x hx]
    simpa using hc
  have same : (f b).filter (fun x => g x = some b) = f b :=
    List.filter_eq_self.2 fun x hx => by simpa using hf b x hx
  induction bs with
  | nil => cases hb
  | cons c bs ih =>
    obtain ⟨hc, hn⟩ := List.nodup_cons.1 hn
    rw [List.flatMap_cons, List.filter_append]
    rcases List.mem_cons.1 hb with rfl | hb
    · have rest : (bs.flatMap f).filter (fun x => g x = some b) = [] := by
        refine List.filter_eq_nil_iff.2 fun x hx => ?_
        obtain ⟨d, hd, hx⟩ := List.mem_flatMap.1 hx
        rw [hf d x hx]
        rintro heq
        obtain rfl : d = b := by simpa using heq
        exact hc hd
      rw [same, rest, List.append_nil]
    · have hcb : c ≠ b := by
        rintro rfl
        exact hc hb
      rw [other hcb, ih hn hb, List.nil_append]

/-- Parts with classes of their own are known from what they join to. -/
theorem eq_of_flatMap_eq [DecidableEq β] {f f' : β → List α} {g : α → Option β} (hf : ∀ b, ∀ x ∈ f b, g x = some b)
    (hf' : ∀ b, ∀ x ∈ f' b, g x = some b) {bs : List β} (hn : bs.Nodup) (h : bs.flatMap f = bs.flatMap f') :
    ∀ b ∈ bs, f b = f' b := by
  intro b hb
  rw [← filter_flatMap_eq hf hn hb, h, filter_flatMap_eq hf' hn hb]

/-- Lists with the same images under one map have the same images under another one that depends on it. -/
theorem map_eq_of_map_eq {f : α → β} {g : α → γ} (h : l.map f = m.map f)
    (hg : ∀ x ∈ l, ∀ y ∈ m, f x = f y → g x = g y) : l.map g = m.map g := by
  induction l generalizing m with
  | nil =>
    cases m with
    | nil => rfl
    | cons => cases h
  | cons x l ih =>
    cases m with
    | nil => cases h
    | cons y m =>
      obtain ⟨hxy, h⟩ := List.cons.inj h
      rw [List.map_cons, List.map_cons, hg x List.mem_cons_self y List.mem_cons_self hxy,
        ih h fun x hx y hy => hg x (List.mem_cons_of_mem _ hx) y (List.mem_cons_of_mem _ hy)]

/-- What is written as blocks, one after the other, has the same images under a map that depends on the blocks. -/
theorem map_eq_of_flatMap_eq {f : β → List α} {g : β → γ} {ls ms : List β}
    (hls : ∀ x ∈ ls, IsBlock opens closes (f x)) (hms : ∀ x ∈ ms, IsBlock opens closes (f x))
    (h : ls.flatMap f = ms.flatMap f) (hg : ∀ x ∈ ls, ∀ y ∈ ms, f x = f y → g x = g y) : ls.map g = ms.map g := by
  rw [List.flatMap_def, List.flatMap_def] at h
  exact map_eq_of_map_eq
    (eq_of_flatten_eq (List.forall_mem_map.2 hls) (List.forall_mem_map.2 hms) h) hg

theorem eq_of_toList {o p : Option α} (h : o.toList = p.toList) : o = p :=
  calc
    o = o.toList.head? := Option.head?_toList.symm
    _ = p.toList.head? := by rw [h]
    _ = p := Option.head?_toList

end ScoreDecoding
