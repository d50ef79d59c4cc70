import Lowering.Proofs.Flow.Search
import Lowering.Proofs.Overflow
import Lowering.Ssa.Promotion.Placement
import Mathlib.Data.Fintype.Card
import Mathlib.Data.Fintype.Prod
import Mathlib.Data.List.FinRange
import Mathlib.Data.List.Nodup

/-!
# Where phis are placed

The joins of a list of blocks are the smallest set that contains the frontiers of these blocks and of all
the joins.  So at a block in the frontier of one that changes a slot there is a phi for the slot, and
there is only one.
-/

namespace Lowering.Ssa

open Search

variable {n k : Nat}

/-! ## Joins -/

namespace JoinSearch

variable {frontiers : Table n (List (Fin n))} {sites : List (Fin n)} {search : JoinSearch n}

/-- The joins are listed once each. -/
def Listed (search : JoinSearch n) : Prop :=
  search.joins.Nodup ∧ ∀ block, search.found.get block = true ↔ block ∈ search.joins

/-- A search that still has to take the frontiers on its agenda. -/
structure Underway (frontiers : Table n (List (Fin n))) (sites : List (Fin n))
    (search : JoinSearch n) : Prop where
  listed : search.Listed
  pending : ∀ block, block ∈ sites ∨ block ∈ search.joins → block ∈ search.agenda ∨
    ∀ join ∈ frontiers.get block, join ∈ search.joins

/-- A later search has found more joins, and those that are no sites are on its agenda. -/
structure Later (sites : List (Fin n)) (search later : JoinSearch n) : Prop where
  joins : ∀ block ∈ search.joins, block ∈ later.joins
  agenda : ∀ block ∈ search.agenda, block ∈ later.agenda
  waiting : ∀ block ∈ later.joins,
    block ∈ search.joins ∨ block ∈ sites ∨ block ∈ later.agenda

theorem Later.refl (sites : List (Fin n)) (search : JoinSearch n) : Later sites search search :=
  ⟨fun _ => id, fun _ => id, fun _ => .inl⟩

theorem Later.trans {middle last : JoinSearch n} (first : Later sites search middle)
    (second : Later sites middle last) : Later sites search last where
  joins block member := second.joins block (first.joins block member)
  agenda block member := second.agenda block (first.agenda block member)
  waiting block member := by
    rcases second.waiting block member with known | site | listed
    · rcases first.waiting block known with known | site | listed
      · exact .inl known
      · exact .inr (.inl site)
      · exact .inr (.inr (second.agenda block listed))
    · exact .inr (.inl site)
    · exact .inr (.inr listed)

theorem later_meet (listed : search.Listed) (sites : List (Fin n)) (join : Fin n) :
    (search.meet sites join).Listed ∧ Later sites search (search.meet sites join) ∧
      join ∈ (search.meet sites join).joins := by
  obtain ⟨nodup, found⟩ := listed
  unfold meet
  split
  · next known => exact ⟨⟨nodup, found⟩, .refl sites search, (found join).mp known⟩
  · next unknown =>
      have fresh : join ∉ search.joins := fun member => unknown ((found join).mpr member)
      refine ⟨⟨?_, ?_⟩, ⟨?_, ?_, ?_⟩, List.mem_append_right _ (List.mem_singleton_self join)⟩
      · exact List.nodup_append.mpr ⟨nodup, List.nodup_singleton join, fun a member b last => by
          rw [List.mem_singleton.mp last]
          exact fun same => fresh (same ▸ member)⟩
      · intro block
        rw [Marks.get_set_eq_true, found, List.mem_append, List.mem_singleton, or_comm]
      · exact fun block member => List.mem_append_left _ member
      · intro block member
        show block ∈ if _ then _ else _
        split
        · exact member
        · exact List.mem_cons_of_mem _ member
      · intro block member
        show _ ∨ _ ∨ block ∈ if _ then _ else _
        rcases List.mem_append.mp member with known | last
        · exact .inl known
        · rw [List.mem_singleton.mp last]
          split
          · next site => exact .inr (.inl (List.contains_iff_mem.mp site))
          · exact .inr (.inr List.mem_cons_self)

theorem later_foldl (listed : search.Listed) (sites frontier : List (Fin n)) :
    (frontier.foldl (meet sites) search).Listed ∧
      Later sites search (frontier.foldl (meet sites) search) ∧
      ∀ join ∈ frontier, join ∈ (frontier.foldl (meet sites) search).joins := by
  induction frontier generalizing search with
  | nil => exact ⟨listed, .refl sites search, fun join member => absurd member List.not_mem_nil⟩
  | cons head rest ih =>
      obtain ⟨listed, later, met⟩ := later_meet listed sites head
      obtain ⟨listed, latest, all⟩ := ih listed
      refine ⟨listed, later.trans latest, ?_⟩
      intro join member
      rcases List.mem_cons.mp member with rfl | inside
      · exact latest.joins join met
      · exact all join inside

theorem underway_run (underway : Underway frontiers sites search) :
    Underway frontiers sites (run frontiers sites search) ∧
      (run frontiers sites search).agenda = [] := by
  fun_induction run frontiers sites search with
  | case1 found joins => exact ⟨underway, rfl⟩
  | case2 found joins block rest ih =>
      refine ih ?_
      have before : Listed ⟨found, joins, rest⟩ := underway.listed
      obtain ⟨listed, later, all⟩ := later_foldl before sites (frontiers.get block)
      refine ⟨listed, ?_⟩
      have earlier {other : Fin n} (known : other ∈ sites ∨ other ∈ joins) :
          other ∈ ((frontiers.get block).foldl (meet sites) ⟨found, joins, rest⟩).agenda ∨
            ∀ join ∈ frontiers.get other, join ∈
              ((frontiers.get block).foldl (meet sites) ⟨found, joins, rest⟩).joins := by
        rcases underway.pending other known with waiting | taken
        · rcases List.mem_cons.mp waiting with rfl | inside
          · exact .inr all
          · exact .inl (later.agenda other inside)
        · exact .inr fun join member => later.joins join (taken join member)
      rintro other (site | member)
      · exact earlier (.inl site)
      · rcases later.waiting other member with known | site | waiting
        · exact earlier (.inr known)
        · exact earlier (.inl site)
        · exact .inl waiting

/-- What a search has found lies in a set of blocks, and its agenda too but for sites. -/
def Within (sites : List (Fin n)) (inside : Fin n → Prop) (search : JoinSearch n) : Prop :=
  (∀ block ∈ search.joins, inside block) ∧ ∀ block ∈ search.agenda, block ∈ sites ∨ inside block

theorem within_meet {inside : Fin n → Prop} (within : search.Within sites inside) {join : Fin n}
    (isInside : inside join) : (search.meet sites join).Within sites inside := by
  unfold meet
  split
  · exact within
  · refine ⟨fun block member => ?_, fun block member => ?_⟩
    · rcases List.mem_append.mp member with known | last
      · exact within.1 block known
      · exact List.mem_singleton.mp last ▸ isInside
    · replace member : block ∈ if _ then _ else _ := member
      split at member
      · exact within.2 block member
      · rcases List.mem_cons.mp member with rfl | known
        · exact .inr isInside
        · exact within.2 block known

theorem within_foldl {inside : Fin n → Prop} (within : search.Within sites inside)
    {frontier : List (Fin n)} (isInside : ∀ join ∈ frontier, inside join) :
    (frontier.foldl (meet sites) search).Within sites inside := by
  induction frontier generalizing search with
  | nil => exact within
  | cons head rest ih =>
      obtain ⟨first, others⟩ := List.forall_mem_cons.mp isInside
      exact ih (within_meet within first) others

theorem within_run {inside : Fin n → Prop}
    (closed : ∀ block, block ∈ sites ∨ inside block → ∀ join ∈ frontiers.get block, inside join)
    (within : search.Within sites inside) : (run frontiers sites search).Within sites inside := by
  fun_induction run frontiers sites search with
  | case1 found joins => exact within
  | case2 found joins block rest ih =>
      have before : Within sites inside ⟨found, joins, rest⟩ :=
        ⟨within.1, fun other member => within.2 other (List.mem_cons_of_mem _ member)⟩
      have taken := closed block (within.2 block List.mem_cons_self)
      exact ih (within_foldl before taken)

end JoinSearch

/-- Joins are listed once, and frontiers of sites and joins are joins. -/
theorem joins_closed (frontiers : Table n (List (Fin n))) (sites : List (Fin n)) :
    (joins frontiers sites).Nodup ∧ ∀ block, block ∈ sites ∨ block ∈ joins frontiers sites →
      ∀ join ∈ frontiers.get block, join ∈ joins frontiers sites := by
  have start : JoinSearch.Underway frontiers sites ⟨.none n, [], sites.reverse⟩ := by
    refine ⟨⟨List.nodup_nil, ?_⟩, ?_⟩
    · intro block
      unfold Marks.none
      simp
    · rintro block (site | member)
      · exact .inl (List.mem_reverse.mpr site)
      · cases member
  obtain ⟨underway, done⟩ := JoinSearch.underway_run start
  refine ⟨underway.listed.1, fun block known => (underway.pending block known).resolve_left ?_⟩
  rw [done]
  exact List.not_mem_nil

/-- There are no other joins than the frontiers of sites and joins call for. -/
theorem joins_least {frontiers : Table n (List (Fin n))} {sites : List (Fin n)}
    {inside : Fin n → Prop}
    (closed : ∀ block, block ∈ sites ∨ inside block → ∀ join ∈ frontiers.get block, inside join) :
    ∀ join ∈ joins frontiers sites, inside join := by
  refine (JoinSearch.within_run closed ⟨fun block member => ?_, fun block member => ?_⟩).1
  · cases member
  · exact .inl (List.mem_reverse.mp member)

/-! ## Numbered phis -/

/-- Phis are numbered in the order of their sites. -/
theorem numberPhis_eq_ok {next last : Nat} {sites : List (Fin k × Fin n)}
    {placed : List (PlacedPhi n k)} (ok : numberPhis next sites = .ok (placed, last)) :
    placed.map (fun phi => (phi.slot, phi.block)) = sites ∧
      placed.map PlacedPhi.dest = List.range' next sites.length ∧
      last = next + sites.length := by
  induction sites generalizing next placed with
  | nil =>
      cases ok
      exact ⟨rfl, rfl, rfl⟩
  | cons site rest ih =>
      obtain ⟨slot, block⟩ := site
      rw [numberPhis] at ok
      obtain ⟨after, counted, ok⟩ := bind_eq_ok.mp ok
      obtain ⟨⟨others, end_⟩, numbered, ok⟩ := bind_eq_ok.mp ok
      cases ok
      obtain ⟨rfl, _⟩ := Width.add_eq_ok_iff.mp counted
      obtain ⟨sites, dests, rfl⟩ := ih numbered
      refine ⟨congrArg _ sites, congrArg _ dests, ?_⟩
      rw [List.length_cons]
      omega

theorem onlyOverflows_numberPhis (next : Nat) (sites : List (Fin k × Fin n)) :
    OnlyOverflows (numberPhis next sites) := by
  induction sites generalizing next with
  | nil => exact .ok _
  | cons site rest ih =>
      refine (OnlyOverflows.add _ _ _).bind fun after _ => ?_
      exact (ih after).bind fun _ _ => .ok _

theorem exists_numberPhis {next : Nat} {sites : List (Fin k × Fin n)}
    (fits : next + sites.length < Width.w32.bound) :
    ∃ result, numberPhis next sites = .ok result := by
  induction sites generalizing next with
  | nil => exact ⟨_, rfl⟩
  | cons site rest ih =>
      rw [List.length_cons] at fits
      obtain ⟨slot, block⟩ := site
      have counted : Width.w32.add next 1 = .ok (next + 1) :=
        Width.add_eq_ok_iff.mpr ⟨rfl, by omega⟩
      obtain ⟨⟨placed, last⟩, numbered⟩ := ih (by omega : next + 1 + _ < _)
      exact ⟨_, bind_eq_ok.mpr ⟨_, counted, bind_eq_ok.mpr ⟨_, numbered, rfl⟩⟩⟩

namespace Func

variable {f : Func} {slots : List Nat}

theorem mem_storeSites {slot : Nat} {block : Fin f.blocks.length} :
    block ∈ f.storeSites slot ↔ ∃ inst ∈ (f.blocks.get block).insts, inst.storesTo slot = true := by
  unfold storeSites
  simp

theorem mem_phiSites {frontiers : Table f.blocks.length (List (Fin f.blocks.length))}
    {slot : Fin slots.length} {block : Fin f.blocks.length} :
    (slot, block) ∈ f.phiSites slots frontiers ↔
      block ∈ joins frontiers (f.storeSites (slots.get slot)) := by
  unfold phiSites
  simp

theorem nodup_phiSites (slots : List Nat)
    (frontiers : Table f.blocks.length (List (Fin f.blocks.length))) :
    (f.phiSites slots frontiers).Nodup := by
  refine List.nodup_flatMap.mpr ⟨fun slot _ => ?_, ?_⟩
  · exact (joins_closed _ _).1.map fun _ _ same => congrArg Prod.snd same
  · refine (List.nodup_finRange slots.length).imp fun different => ?_
    intro site first second
    obtain ⟨_, _, rfl⟩ := List.mem_map.mp first
    obtain ⟨_, _, same⟩ := List.mem_map.mp second
    exact different (congrArg Prod.fst same).symm

/-- There is at most one phi in every block for every slot. -/
theorem length_phiSites_le (slots : List Nat)
    (frontiers : Table f.blocks.length (List (Fin f.blocks.length))) :
    (f.phiSites slots frontiers).length ≤ slots.length * f.blocks.length := by
  have few := (nodup_phiSites slots frontiers).length_le_card
  rwa [Fintype.card_prod, Fintype.card_fin, Fintype.card_fin] at few

end Func

end Lowering.Ssa
