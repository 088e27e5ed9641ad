import Mathlib.Data.List.Induction
import Mathlib.Data.List.Nodup
import Mathlib.Data.List.Perm.Basic

set_option autoImplicit false

/-!
# Greedy grouping

One pass over a list: an item joins the first group whose leader it is near, and leads a
group of its own when there is none. Leaders never change, so which group an item joins is
decided by the leaders alone.
-/
namespace StrataMemory.Clustering

structure Cohort (α : Type) where
  leader : α
  followers : List α

section Cohorts
variable {α : Type}

def Cohort.items (g : Cohort α) : List α := g.leader :: g.followers

def Cohort.add (g : Cohort α) (a : α) : Cohort α := { g with followers := g.followers ++ [a] }

variable (near : α → α → Bool)

def join (a : α) : List (Cohort α) → List (Cohort α)
  | [] => [⟨a, []⟩]
  | g :: rest => if near a g.leader then g.add a :: rest else g :: join a rest

def cohorts (xs : List α) : List (Cohort α) := xs.foldl (fun gs a => join near a gs) []

/-- Each item is near the leader of its own group, and of no group before it. -/
def Placed : List (Cohort α) → Prop
  | [] => True
  | g :: rest => (∀ a ∈ g.items, near a g.leader = true) ∧
      (∀ h ∈ rest, ∀ a ∈ h.items, near a g.leader = false) ∧ Placed rest

variable {near}

theorem join_perm (a : α) (gs : List (Cohort α)) :
    ((join near a gs).flatMap Cohort.items).Perm (a :: gs.flatMap Cohort.items) := by
  induction gs with
  | nil => exact .refl _
  | cons g rest ih =>
    simp only [join]
    split
    · change (g.leader :: (g.followers ++ [a]) ++ _).Perm (a :: (g.items ++ _))
      rw [← List.cons_append, List.append_assoc]
      exact List.perm_middle
    · simp only [List.flatMap_cons]
      exact (ih.append_left _).trans List.perm_middle

theorem cohorts_perm (xs : List α) : ((cohorts near xs).flatMap Cohort.items).Perm xs := by
  suffices h : ∀ gs, ((xs.foldl (fun gs a => join near a gs) gs).flatMap Cohort.items).Perm
      (xs ++ gs.flatMap Cohort.items) by
    have := h []
    rwa [List.flatMap_nil, List.append_nil] at this
  induction xs with
  | nil => exact fun gs => .refl _
  | cons a xs ih =>
    intro gs
    refine (ih _).trans (((join_perm a gs).append_left xs).trans ?_)
    exact List.perm_middle

theorem mem_cohorts {xs : List α} {a : α} : (∃ g ∈ cohorts near xs, a ∈ g.items) ↔ a ∈ xs :=
  List.mem_flatMap.symm.trans (cohorts_perm xs).mem_iff

theorem items_nodup {κ : Type} {key : α → κ} {xs : List α} (hxs : (xs.map key).Nodup)
    {g : Cohort α} (hg : g ∈ cohorts near xs) : (g.items.map key).Nodup := by
  have hall : (((cohorts near xs).flatMap Cohort.items).map key).Nodup :=
    ((cohorts_perm xs).map key).nodup_iff.mpr hxs
  rw [List.map_flatMap] at hall
  exact (List.nodup_flatMap.mp hall).1 g hg

theorem cohorts_concat (xs : List α) (a : α) :
    cohorts near (xs ++ [a]) = join near a (cohorts near xs) := by
  unfold cohorts
  rw [List.foldl_append]
  rfl

theorem mem_join {a b : α} {g : Cohort α} {gs : List (Cohort α)} (hg : g ∈ join near a gs)
    (hb : b ∈ g.items) : b = a ∨ ∃ h ∈ gs, b ∈ h.items := by
  have hmem := (join_perm a gs).mem_iff.mp (List.mem_flatMap.mpr ⟨g, hg, hb⟩)
  rcases List.mem_cons.mp hmem with rfl | hmem
  · exact .inl rfl
  · exact .inr (List.mem_flatMap.mp hmem)

theorem eq_of_mem_join {a : α} {g : Cohort α} {gs : List (Cohort α)} (hg : g ∈ join near a gs) :
    g ∈ gs ∨ (∃ h ∈ gs, near a h.leader = true ∧ g = h.add a) ∨ g = ⟨a, []⟩ := by
  induction gs with
  | nil => exact .inr (.inr (List.mem_singleton.mp hg))
  | cons h rest ih =>
    simp only [Clustering.join] at hg
    split at hg
    · rename_i hnear
      rcases List.mem_cons.mp hg with rfl | hg
      · exact .inr (.inl ⟨h, List.mem_cons_self, hnear, rfl⟩)
      · exact .inl (List.mem_cons_of_mem _ hg)
    · rcases List.mem_cons.mp hg with rfl | hg
      · exact .inl List.mem_cons_self
      · rcases ih hg with hold | ⟨k, hk, hjoined⟩ | hown
        · exact .inl (List.mem_cons_of_mem _ hold)
        · exact .inr (.inl ⟨k, List.mem_cons_of_mem _ hk, hjoined⟩)
        · exact .inr (.inr hown)

theorem near_leader {xs : List α} {g : Cohort α} (hg : g ∈ cohorts near xs) :
    ∀ a ∈ g.followers, near a g.leader = true := by
  induction xs using List.reverseRecOn generalizing g with
  | nil => cases hg
  | append_singleton xs b ih =>
    rw [cohorts_concat] at hg
    rcases eq_of_mem_join hg with hold | ⟨h, hh, hnear, rfl⟩ | rfl
    · exact ih hold
    · intro a ha
      rcases List.mem_append.mp ha with ha | ha
      · exact ih hh a ha
      · cases List.mem_singleton.mp ha
        exact hnear
    · exact fun _ h => absurd h List.not_mem_nil

def Apart (near : α → α → Bool) : List (Cohort α) → Prop :=
  List.Pairwise fun g h => ∀ a ∈ h.items, near a g.leader = false

theorem Apart.join {a : α} {gs : List (Cohort α)} (h : Apart near gs) :
    Apart near (join near a gs) := by
  induction gs with
  | nil => exact List.pairwise_singleton _ _
  | cons g rest ih =>
    obtain ⟨hlater, hrest⟩ := List.pairwise_cons.mp h
    simp only [Clustering.join]
    split
    · exact List.pairwise_cons.mpr ⟨hlater, hrest⟩
    · rename_i hfar
      refine List.pairwise_cons.mpr ⟨fun k hk b hb => ?_, ih hrest⟩
      rcases mem_join hk hb with rfl | ⟨k', hk', hb'⟩
      · exact Bool.eq_false_iff.mpr hfar
      · exact hlater k' hk' b hb'

theorem apart_cohorts (xs : List α) : Apart near (cohorts near xs) := by
  induction xs using List.reverseRecOn with
  | nil => exact List.Pairwise.nil
  | append_singleton xs a ih =>
    rw [cohorts_concat]
    exact ih.join

theorem placed_of_apart {gs : List (Cohort α)} (hnear : ∀ g ∈ gs, ∀ a ∈ g.items, near a g.leader = true)
    (h : Apart near gs) : Placed near gs := by
  induction gs with
  | nil => trivial
  | cons g rest ih =>
    obtain ⟨hlater, hrest⟩ := List.pairwise_cons.mp h
    exact ⟨hnear g List.mem_cons_self, hlater,
      ih (fun k hk => hnear k (List.mem_cons_of_mem _ hk)) hrest⟩

theorem placed_cohorts (hself : ∀ a, near a a = true) (xs : List α) :
    Placed near (cohorts near xs) := by
  refine placed_of_apart (fun g hg a ha => ?_) (apart_cohorts xs)
  rcases List.mem_cons.mp ha with rfl | ha
  · exact hself _
  · exact near_leader hg a ha

/-- Items that are near the same leaders are in one group. -/
theorem Placed.same {gs : List (Cohort α)} (hp : Placed near gs) {g h : Cohort α} (hg : g ∈ gs)
    (hh : h ∈ gs) {a b : α} (ha : a ∈ g.items) (hb : b ∈ h.items)
    (hab : ∀ c, near a c = near b c) : g = h := by
  induction gs with
  | nil => cases hg
  | cons k rest ih =>
    obtain ⟨hown, hlater, hrest⟩ := hp
    rcases List.mem_cons.mp hg with rfl | hg' <;> rcases List.mem_cons.mp hh with rfl | hh'
    · rfl
    · have hnear := hown a ha
      rw [hab, hlater h hh' b hb] at hnear
      cases hnear
    · have hnear := hown b hb
      rw [← hab, hlater g hg' a ha] at hnear
      cases hnear
    · exact ih hrest hg' hh'

theorem items_sublist {xs : List α} {g : Cohort α} (hg : g ∈ cohorts near xs) :
    g.items.Sublist xs := by
  induction xs using List.reverseRecOn generalizing g with
  | nil => cases hg
  | append_singleton xs a ih =>
    rw [cohorts_concat] at hg
    rcases eq_of_mem_join hg with hold | ⟨h, hh, _, rfl⟩ | rfl
    · exact (ih hold).trans (List.sublist_append_left _ _)
    · have hitems : (h.add a).items = h.items ++ [a] := rfl
      rw [hitems]
      exact (ih hh).append_right [a]
    · exact List.sublist_append_right _ _

theorem leaders_join (a : α) (gs : List (Cohort α)) :
    ((join near a gs).map Cohort.leader).Sublist (gs.map Cohort.leader ++ [a]) := by
  induction gs with
  | nil => exact .refl _
  | cons g rest ih =>
    simp only [Clustering.join]
    split
    · exact List.sublist_append_left _ [a]
    · exact ih.cons_cons g.leader

theorem leaders_sublist (xs : List α) : ((cohorts near xs).map Cohort.leader).Sublist xs := by
  induction xs using List.reverseRecOn with
  | nil => exact .refl _
  | append_singleton xs a ih =>
    rw [cohorts_concat]
    exact (leaders_join a _).trans (ih.append_right [a])

end Cohorts
end StrataMemory.Clustering
