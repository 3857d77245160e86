import Mathlib.Logic.Relation
import Prolly.Lib.StackLoop

/-!
# Worklist traversals

A traversal takes up keys one by one, and each key refers to others. It may mark keys when it finds
them, so that each is pending once, and take them up in any order. `Marks` is its invariant; when
nothing is pending, the keys that were taken up are those reachable from the roots
(`Marks.done_iff`).
-/

namespace Worklist

variable {κ : Type*} {references : κ → List κ}

/-- Of the keys found from the roots some are pending; what the others refer to is found. -/
structure Marks (references : κ → List κ) (roots found pending done : List κ) : Prop where
  roots_found : ∀ key ∈ roots, key ∈ found
  reachable : ∀ key ∈ found,
    ∃ root ∈ roots, Relation.ReflTransGen (fun a b => b ∈ references a) root key
  pending_or_done : ∀ key, key ∈ found ↔ key ∈ pending ∨ key ∈ done
  closed : ∀ key ∈ done, ∀ child ∈ references key, child ∈ found

namespace Marks

variable {roots found pending done : List κ}

theorem start (hroots : ∀ key, key ∈ found ↔ key ∈ roots) :
    Marks references roots found found [] where
  roots_found key hkey := (hroots key).mpr hkey
  reachable key hkey := ⟨key, (hroots key).mp hkey, .refl⟩
  pending_or_done key := by simp
  closed key hkey := nomatch hkey

/-- The same keys may be pending in another order. -/
theorem reorder {pending' : List κ} (h : Marks references roots found pending done)
    (hpending : ∀ key, key ∈ pending' ↔ key ∈ pending) :
    Marks references roots found pending' done :=
  { h with pending_or_done := fun key => by rw [hpending, h.pending_or_done] }

/-- A pending key is taken up: what it refers to is found now, and what was not found before is
pending. -/
theorem step {key : κ} {found' pending' : List κ}
    (h : Marks references roots found (key :: pending) done)
    (hfound : ∀ k, k ∈ found' ↔ k ∈ found ∨ k ∈ references key)
    (hpending : ∀ k, k ∈ pending' ↔ k ∈ pending ∨ k ∈ references key ∧ k ∉ found) :
    Marks references roots found' pending' (key :: done) where
  roots_found k hk := (hfound k).mpr (.inl (h.roots_found k hk))
  reachable k hk := by
    rcases (hfound k).mp hk with hk | hk
    · exact h.reachable k hk
    · obtain ⟨root, hroot, hreach⟩ := h.reachable key
        ((h.pending_or_done key).mpr (.inl List.mem_cons_self))
      exact ⟨root, hroot, hreach.tail hk⟩
  pending_or_done k := by
    have hk := h.pending_or_done k
    rw [hfound, hpending]
    simp only [List.mem_cons] at hk ⊢
    tauto
  closed k hk child hchild := by
    rcases List.mem_cons.mp hk with rfl | hk
    · exact (hfound child).mpr (.inr hchild)
    · exact (hfound child).mpr (.inl (h.closed k hk child hchild))

/-- With nothing pending, the keys taken up are those reachable from the roots. -/
theorem done_iff (h : Marks references roots found [] done) (key : κ) :
    key ∈ done ↔
      ∃ root ∈ roots, Relation.ReflTransGen (fun a b => b ∈ references a) root key := by
  have hfound : ∀ k, k ∈ found ↔ k ∈ done := fun k => by simp [h.pending_or_done k]
  constructor
  · exact fun hkey => h.reachable key ((hfound key).mpr hkey)
  · rintro ⟨root, hroot, hreach⟩
    induction hreach with
    | refl => exact (hfound root).mp (h.roots_found root hroot)
    | tail _ hstep ih => exact (hfound _).mp (h.closed _ ih _ hstep)

end Marks

end Worklist
