import Mathlib.Data.List.Sort
import TheGame.Machine.Simulation

/-!
# `Deck`

`Card.h`, `Deck.h`, `Deck.cpp`. `std::size_t` has 64 bits. The top of a deck is the last of its
cards. `std::shuffle` may leave any permutation of the cards.
-/

namespace TheGame

structure Card where
  value : UInt64
deriving DecidableEq

namespace Card

/-- `Card::operator<` -/
instance : LT Card := ⟨fun a b => a.value < b.value⟩

instance (a b : Card) : Decidable (a < b) := inferInstanceAs (Decidable (a.value < b.value))

end Card

abbrev Hand := List Card

structure Deck where
  cards : Hand := []
deriving DecidableEq

namespace Deck

open Mealy (Lifo lifo)

variable (d : Deck)

/-- `Deck::IsSorted` -/
def isSorted : Bool := d.cards.IsChain fun a b => ¬b < a

/-- `Deck::IsEmpty` -/
def isEmpty : Bool := d.cards.isEmpty

/-- `Deck::GetSize` -/
def getSize : Nat := d.cards.length

/-- `Deck::GetCards` -/
def getCards : Hand := d.cards

/-- `Deck::Sort` -/
def sort : Deck := ⟨d.cards.insertionSort fun a b => ¬b < a⟩

/-- `Deck::Shuffle`, with what it leaves. -/
def shuffle (cards : Hand) : Option Deck := if cards.Perm d.cards then some ⟨cards⟩ else none

/-- `Deck::AddCard` -/
def addCard (card : Card) : Deck := ⟨d.cards ++ [card]⟩

/-- `Deck::PickCard`. The deck is not empty. -/
def pickCard : Option (Card × Deck) := d.cards.getLast?.map fun card => (card, ⟨d.cards.dropLast⟩)

/-- `Deck::GetTopCard`. The deck is not empty. -/
def getTopCard : Option Card := d.cards.getLast?

/-- The loop of `Deck::Build`, for at most `fuel` rounds. -/
def buildLoop (n : UInt64) : Nat → UInt64 → Deck → Option Deck
  | 0, _, _ => none
  | fuel + 1, i, deck => if i ≤ n then buildLoop n fuel (i + 1) (deck.addCard ⟨i⟩) else some deck

/-- `Deck::Build`, with what `Shuffle` leaves. -/
def build (fuel : Nat) (nOfCards : UInt64) (cards : Hand) : Option Deck :=
  (buildLoop nOfCards fuel 1 {}).bind fun deck => deck.shuffle cards

/-- What can be done to a deck. -/
inductive Event
  | addCard (card : Card)
  | pickCard
  | sort
  | shuffle (cards : Hand)
deriving DecidableEq

/-- A step outputs the card that is picked. -/
def step : Event → Option (Deck × List Card)
  | .addCard card => some (d.addCard card, [])
  | .pickCard => d.pickCard.map fun r => (r.2, [r.1])
  | .sort => some (d.sort, [])
  | .shuffle cards => (d.shuffle cards).map fun d => (d, [])

/-- The games that start with the deck. -/
def machine : Mealy Deck Event Card where
  init := d
  step := step

/-- The card that is added. -/
def Event.added : Event → Option Card
  | .addCard card => some card
  | _ => none

/-- The cards `1` to `n`. -/
def fresh (n : Nat) : Hand := (List.range n).map fun k => ⟨UInt64.ofNat (k + 1)⟩

variable {d} {d' d₀ : Deck} {e : Event} {es : List Event} {o picked : List Card}

/-! ## Building -/

/-- The loop ends after `n` rounds, unless `n` is the greatest number there is. -/
theorem buildLoop_fresh {n : UInt64} (hn : n.toNat + 1 < UInt64.size) {fuel k : Nat}
    (hk : k ≤ n.toNat) : buildLoop n fuel (UInt64.ofNat (k + 1)) ⟨fresh k⟩ =
      if n.toNat < k + fuel then some ⟨fresh n.toNat⟩ else none := by
  induction fuel generalizing k with
  | zero => exact (if_neg (Nat.not_lt.mpr hk)).symm
  | succ fuel ih =>
    have htoNat : (UInt64.ofNat (k + 1)).toNat = k + 1 :=
      UInt64.toNat_ofNat_of_lt' (by omega)
    have hle : UInt64.ofNat (k + 1) ≤ n ↔ k + 1 ≤ n.toNat := by
      rw [UInt64.le_iff_toNat_le, htoNat]
    rw [buildLoop]
    by_cases hlt : k + 1 ≤ n.toNat
    · have hadd : UInt64.ofNat (k + 1) + 1 = UInt64.ofNat (k + 1 + 1) := by
        rw [UInt64.ofNat_add (k + 1) 1]
        rfl
      have hcards : addCard ⟨fresh k⟩ ⟨UInt64.ofNat (k + 1)⟩ = ⟨fresh (k + 1)⟩ := by
        rw [addCard, fresh, fresh, List.range_succ, List.map_append]
        rfl
      rw [if_pos (hle.mpr hlt), hadd, hcards, ih hlt, Nat.add_right_comm, Nat.add_assoc]
    · obtain rfl : k = n.toNat := by omega
      rw [if_neg (mt hle.mp hlt), if_pos (by omega)]

/-- `Build` returns for every `n` but the greatest, with the cards in any order. -/
theorem build_eq_some {n : UInt64} (hn : n.toNat + 1 < UInt64.size) {fuel : Nat} {cards : Hand} :
    build fuel n cards = some d ↔
      n.toNat < fuel ∧ cards.Perm (fresh n.toNat) ∧ d = ⟨cards⟩ := by
  have hloop : buildLoop n fuel 1 {} =
      if n.toNat < 0 + fuel then some ⟨fresh n.toNat⟩ else none :=
    buildLoop_fresh hn (Nat.zero_le n.toNat)
  rw [build, hloop, Nat.zero_add]
  by_cases hfuel : n.toNat < fuel
  · rw [if_pos hfuel, Option.bind_some, shuffle, Option.ite_none_right_eq_some, Option.some.injEq,
      eq_comm (a := d)]
    exact (and_iff_right hfuel).symm
  · rw [if_neg hfuel]
    exact iff_of_false nofun fun h => hfuel h.1

section
variable {n k : Nat}

theorem toNat_of_lt (hn : n < UInt64.size) (hk : k < n) : (UInt64.ofNat (k + 1)).toNat = k + 1 :=
  UInt64.toNat_ofNat_of_lt' (by omega)

theorem nodup_fresh (hn : n < UInt64.size) : (fresh n).Nodup := by
  refine List.Nodup.map_on ?_ List.nodup_range
  intro j hj k hk h
  have hcard := congrArg (fun c : Card => c.value.toNat) h
  rw [toNat_of_lt hn (List.mem_range.mp hj), toNat_of_lt hn (List.mem_range.mp hk)] at hcard
  exact Nat.succ.inj hcard

theorem mem_fresh {n : UInt64} {card : Card} (h : card ∈ fresh n.toNat) :
    1 ≤ card.value ∧ card.value ≤ n := by
  obtain ⟨k, hk, rfl⟩ := List.mem_map.mp h
  have hlt : k < n.toNat := List.mem_range.mp hk
  rw [UInt64.le_iff_toNat_le, UInt64.le_iff_toNat_le, toNat_of_lt n.toNat_lt hlt]
  exact ⟨Nat.succ_pos k, hlt⟩

end

/-! ## No card is lost, duplicated or invented -/

theorem step_pickCard : d.step .pickCard = some (d', o) ↔
    ∃ card, o = [card] ∧ d.cards = d'.cards ++ [card] := by
  simp only [step, pickCard, Option.map_map, Option.map_eq_some_iff, Function.comp_apply,
    Prod.mk.injEq]
  constructor
  · rintro ⟨card, hlast, rfl, rfl⟩
    exact ⟨card, rfl, (List.dropLast_append_getLast? card hlast).symm⟩
  · rintro ⟨card, rfl, hcards⟩
    refine ⟨card, ?_, ?_, rfl⟩
    · rw [hcards, List.getLast?_concat]
    · rw [hcards, List.dropLast_concat]

theorem perm_sort : d.sort.cards.Perm d.cards := List.perm_insertionSort _ _

/-- The cards after a step and the one that is picked are the cards before it and the one that is
added. -/
theorem perm_step (h : d.step e = some (d', o)) :
    (o ++ d'.cards).Perm (d.cards ++ e.added.toList) := by
  cases e with
  | addCard card =>
    cases h
    exact .refl _
  | pickCard =>
    obtain ⟨card, rfl, hcards⟩ := step_pickCard.mp h
    simp only [hcards, Event.added, Option.toList_none, List.append_nil]
    exact (List.perm_append_singleton card d'.cards).symm
  | sort =>
    cases h
    simp only [Event.added, Option.toList_none, List.append_nil]
    exact perm_sort
  | shuffle cards =>
    obtain ⟨d'', hd, h⟩ := Option.map_eq_some_iff.mp h
    obtain ⟨hperm, hd⟩ := Option.ite_none_right_eq_some.mp hd
    cases hd
    cases h
    simp only [Event.added, Option.toList_none, List.append_nil]
    exact hperm

theorem perm_runFrom (h : (machine d₀).runFrom d es = some (d', picked)) :
    (picked ++ d'.cards).Perm (d.cards ++ es.filterMap Event.added) := by
  induction es generalizing d picked with
  | nil =>
    cases h
    exact List.perm_append_comm
  | cons e es ih =>
    obtain ⟨t, o, os, hstep, hrun, rfl⟩ := Mealy.runFrom_cons.mp h
    have hadded : (e :: es).filterMap Event.added = e.added.toList ++ es.filterMap Event.added := by
      rw [List.filterMap_cons]
      cases e.added <;> rfl
    rw [hadded, List.append_assoc, ← List.append_assoc d.cards]
    refine ((ih hrun).append_left o).trans ?_
    rw [← List.append_assoc]
    exact (perm_step hstep).append_right _

theorem getSize_runFrom (h : (machine d₀).runFrom d es = some (d', picked)) :
    picked.length + d'.getSize = d.getSize + (es.filterMap Event.added).length := by
  have hlen := (perm_runFrom h).length_eq
  rwa [List.length_append, List.length_append] at hlen

/-! ## Between `Sort` and `Shuffle` -/

/-- Pushing and popping a card. -/
def ofLifo : Lifo Card → Event
  | .push card => .addCard card
  | .pop => .pickCard

/-- Without `Sort` and `Shuffle` a deck is a stack, with its top in front. -/
theorem runFrom_lifo {fs : List (Lifo Card)} :
    (lifo Card).runFrom d.cards.reverse fs =
      ((machine d₀).runFrom d (fs.map ofLifo)).map fun r => (r.1.cards.reverse, r.2) := by
  rw [← Mealy.runFrom_comap]
  refine Mealy.runFrom_semiconj (f := fun d : Deck => d.cards.reverse) fun d e => ?_
  cases e with
  | push card => exact congrArg (fun s => some (s, [])) List.reverse_concat.symm
  | pop =>
    obtain ⟨cards⟩ := d
    rcases List.eq_nil_or_concat cards with rfl | ⟨cards, card, rfl⟩
    · rfl
    · have hpick : step ⟨cards ++ [card]⟩ .pickCard = some (⟨cards⟩, [card]) :=
        step_pickCard.mpr ⟨card, rfl, rfl⟩
      simp only [List.concat_eq_append, List.reverse_concat]
      exact congrArg (Option.map fun r : Deck × List Card => (r.1.cards.reverse, r.2)) hpick.symm

/-! ## Picks after `Sort` -/

/-- The cards are in their order. -/
def Sorted (cards : Hand) : Prop := cards.Pairwise fun a b => a.value ≤ b.value

theorem not_lt_iff {a b : Card} : ¬b < a ↔ a.value ≤ b.value := UInt64.not_lt

instance : IsTrans Card fun a b => ¬b < a :=
  ⟨fun _ _ _ h1 h2 => not_lt_iff.mpr (UInt64.le_trans (not_lt_iff.mp h1) (not_lt_iff.mp h2))⟩

instance : Std.Total fun a b : Card => ¬b < a :=
  ⟨fun _ _ => (UInt64.le_total _ _).imp not_lt_iff.mpr not_lt_iff.mpr⟩

theorem sorted_sort : Sorted d.sort.cards :=
  (List.pairwise_insertionSort (fun a b : Card => ¬b < a) d.cards).imp not_lt_iff.mp

theorem isSorted_iff : d.isSorted = true ↔ Sorted d.cards := by
  rw [isSorted, decide_eq_true_iff, List.isChain_iff_pairwise, Sorted]
  simp only [not_lt_iff]

theorem isSorted_sort : d.sort.isSorted = true := isSorted_iff.mpr sorted_sort

/-- Where the cards are in their order, the greatest ones are picked first. -/
theorem pairwise_runFrom (hes : ∀ e ∈ es, e = .pickCard ∨ e = .sort) (hd : Sorted d.cards)
    (h : (machine d₀).runFrom d es = some (d', picked)) :
    picked.Pairwise fun a b => b.value ≤ a.value := by
  induction es generalizing d picked with
  | nil =>
    cases h
    exact .nil
  | cons e es ih =>
    obtain ⟨t, o, os, hstep, hrun, rfl⟩ := Mealy.runFrom_cons.mp h
    have hes' : ∀ e ∈ es, e = .pickCard ∨ e = .sort :=
      fun e he => hes e (List.mem_cons_of_mem _ he)
    rcases hes e List.mem_cons_self with rfl | rfl
    · obtain ⟨card, rfl, hcards⟩ := step_pickCard.mp hstep
      rw [Sorted, hcards, List.pairwise_append] at hd
      refine .cons (fun c hc => ?_) (ih hes' hd.1 hrun)
      have hnone : es.filterMap Event.added = [] := by
        refine List.filterMap_eq_nil_iff.mpr fun e he => ?_
        rcases hes' e he with rfl | rfl <;> rfl
      have hperm := perm_runFrom hrun
      rw [hnone, List.append_nil] at hperm
      exact hd.2.2 c (hperm.subset (List.mem_append_left _ hc)) card List.mem_cons_self
    · cases hstep
      exact ih hes' sorted_sort hrun

/-! ## Games that start with `Build` -/

/-- `std::numeric_limits<std::size_t>::max()` -/
def sizeMax : UInt64 := UInt64.ofNat (UInt64.size - 1)

theorem toNat_lt_of_lt_sizeMax {n : UInt64} (hn : n < sizeMax) : n.toNat + 1 < UInt64.size :=
  Nat.succ_lt_of_lt_pred (UInt64.lt_iff_toNat_lt.mp hn)

/-- Where the cards that are picked and those that are left are the ones from `1` to `n`. -/
theorem picks_of_perm {n : UInt64} (h : (picked ++ d.cards).Perm (fresh n.toNat)) :
    picked.Nodup ∧ (∀ card ∈ picked, 1 ≤ card.value ∧ card.value ≤ n) ∧
    (d.isEmpty = true ↔ picked.length = n.toNat) ∧
    (d.isEmpty = true → picked.Perm (fresh n.toNat)) := by
  have hnodup : (picked ++ d.cards).Nodup := h.nodup_iff.mpr (nodup_fresh n.toNat_lt)
  have hlen : picked.length + d.cards.length = n.toNat := by
    rw [← List.length_append, h.length_eq, fresh, List.length_map, List.length_range]
  refine ⟨hnodup.of_append_left, fun card hc => ?_, ?_, fun hempty => ?_⟩
  · exact mem_fresh (h.subset (List.mem_append_left _ hc))
  · rw [isEmpty, List.isEmpty_iff, ← List.length_eq_zero_iff]
    omega
  · rwa [List.isEmpty_iff.mp hempty, List.append_nil] at h

/-- `Build` returns, with the cards in any order. In every game that starts with what it returns no
card is lost, duplicated or invented, the top card is picked, the deck is a stack between `Sort`
and `Shuffle`, the picks after `Sort` do not increase, and without `AddCard` the cards from `1` to
`n` are picked once each. -/
theorem run_build {n : UInt64} (hn : n < sizeMax) :
    (∀ fuel cards, n.toNat < fuel → cards.Perm (fresh n.toNat) →
      build fuel n cards = some ⟨cards⟩) ∧
    ∀ fuel cards d₀ es d picked, build fuel n cards = some d₀ →
      (machine d₀).run es = some (d, picked) →
      (picked ++ d.cards).Perm (fresh n.toNat ++ es.filterMap Event.added) ∧
      (∀ d' o, d.step .pickCard = some (d', o) → o = d.getTopCard.toList) ∧
      (∀ fs : List (Lifo Card), (lifo Card).runFrom d.cards.reverse fs =
        ((machine d₀).runFrom d (fs.map ofLifo)).map fun r => (r.1.cards.reverse, r.2)) ∧
      (∀ fs d' o, (∀ e ∈ fs, e = .pickCard ∨ e = .sort) →
        (machine d₀).runFrom d (.sort :: fs) = some (d', o) →
        o.Pairwise fun a b => b.value ≤ a.value) ∧
      (es.filterMap Event.added = [] → picked.Nodup ∧
        (∀ card ∈ picked, 1 ≤ card.value ∧ card.value ≤ n) ∧
        (d.isEmpty = true ↔ picked.length = n.toNat) ∧
        (d.isEmpty = true → picked.Perm (fresh n.toNat))) := by
  have hsize := toNat_lt_of_lt_sizeMax hn
  refine ⟨fun fuel cards hfuel hcards => (build_eq_some hsize).mpr ⟨hfuel, hcards, rfl⟩, ?_⟩
  intro fuel cards d₀ es d picked hbuild hr
  obtain ⟨-, hcards, rfl⟩ := (build_eq_some hsize).mp hbuild
  have hperm : (picked ++ d.cards).Perm (fresh n.toNat ++ es.filterMap Event.added) :=
    (perm_runFrom hr).trans (hcards.append_right _)
  refine ⟨hperm, fun d' o hs => ?_, fun fs => runFrom_lifo, fun fs d' o hfs hr => ?_,
    fun hnone => ?_⟩
  · obtain ⟨card, rfl, htop⟩ := step_pickCard.mp hs
    rw [getTopCard, htop, List.getLast?_concat]
    rfl
  · obtain ⟨t, o, os, hstep, hrun, rfl⟩ := Mealy.runFrom_cons.mp hr
    cases hstep
    exact pairwise_runFrom hfs sorted_sort hrun
  · rw [hnone, List.append_nil] at hperm
    exact picks_of_perm hperm

theorem run_build_two : ∃ d picked,
    (machine ⟨[⟨2⟩, ⟨1⟩]⟩).run [.sort, .pickCard, .pickCard] = some (d, picked) ∧
      picked.Perm (fresh 2) := by
  obtain ⟨hbuild, hrun⟩ := run_build (n := 2) (by decide)
  have hr : (machine ⟨[⟨2⟩, ⟨1⟩]⟩).run [.sort, .pickCard, .pickCard] =
      some (⟨[]⟩, [⟨2⟩, ⟨1⟩]) := by decide
  obtain ⟨-, -, -, -, h⟩ := hrun 3 _ _ _ _ _ (hbuild 3 [⟨2⟩, ⟨1⟩] (by decide) (by decide)) hr
  exact ⟨_, _, hr, (h rfl).2.2.2 rfl⟩

end Deck

end TheGame
