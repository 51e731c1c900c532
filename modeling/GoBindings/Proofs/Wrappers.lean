import GoBindings.Proofs.Members
import Mathlib.Order.Bounds.Basic

/-!
# Wrappers of union members

The struct type of a union member is never called like a type nested in the message. The types of
two members may have one name, though: a nested type can push a member onto another whose name
has more underscores.
-/

namespace GoBindings

open Schema Go Text List

section Pushes

variable {taken : List String} {x y : String} {j k l : Nat}

/-- The least number of underscores that make a name free. -/
def FirstFree (taken : List String) (x : String) (k : Nat) : Prop :=
  IsLeast {k | x ++ repeated k '_' ∉ taken} k

/-- Underscores make the second name of the first, and all names on the way are taken. -/
def PushedOnto (taken : List String) (x y : String) : Prop :=
  ∃ d, 0 < d ∧ y = x ++ repeated d '_' ∧ ∀ k < d, x ++ repeated k '_' ∈ taken

theorem FirstFree.taken_of_lt (hk : FirstFree taken x k) (hj : j < k) :
    x ++ repeated j '_' ∈ taken := by
  by_contra hfree
  have hle := hk.2 hfree
  omega

theorem PushedOnto.length_lt (h : PushedOnto taken x y) : x.length < y.length := by
  obtain ⟨d, hd, rfl, -⟩ := h
  rw [String.length_append, length_repeated]
  omega

theorem PushedOnto.eq (h : PushedOnto taken x y) (hk : FirstFree taken x k)
    (hl : FirstFree taken y l) : x ++ repeated k '_' = y ++ repeated l '_' := by
  obtain ⟨d, -, rfl, hpast⟩ := h
  have hshift (n : Nat) : x ++ repeated d '_' ++ repeated n '_' =
      x ++ repeated (d + n) '_' := by
    rw [repeated_add, String.append_assoc]
  have hdk : d ≤ k := by
    by_contra hlt
    exact hk.1 (hpast k (by omega))
  obtain ⟨n, rfl⟩ := Nat.exists_eq_add_of_le hdk
  have hn : FirstFree taken (x ++ repeated d '_') n := by
    simp only [FirstFree, hshift]
    refine ⟨hk.1, fun l hl => ?_⟩
    have hle := hk.2 hl
    omega
  rw [hshift, IsLeast.unique hl hn]

private theorem pushedOnto_of_le (hlk : l ≤ k)
    (h : x ++ repeated k '_' = y ++ repeated l '_') (hk : FirstFree taken x k) :
    x = y ∨ PushedOnto taken x y := by
  obtain ⟨d, rfl⟩ := Nat.exists_eq_add_of_le' hlk
  rw [repeated_add, ← String.append_assoc, String.append_left_inj] at h
  rcases Nat.eq_zero_or_pos d with rfl | hd
  · exact .inl (by simpa [repeated] using h)
  · exact .inr ⟨d, hd, h.symm, fun j hj => hk.taken_of_lt (by omega)⟩

theorem FirstFree.eq_iff (hk : FirstFree taken x k) (hl : FirstFree taken y l) :
    x ++ repeated k '_' = y ++ repeated l '_' ↔
      x = y ∨ PushedOnto taken x y ∨ PushedOnto taken y x := by
  refine ⟨fun h => ?_, ?_⟩
  · rcases Nat.le_total l k with hlk | hkl
    · exact (pushedOnto_of_le hlk h hk).imp_right .inl
    · exact (pushedOnto_of_le hkl h.symm hl).imp .symm .inr
  · rintro (rfl | hpush | hpush)
    · rw [IsLeast.unique hk hl]
    · exact hpush.eq hk hl
    · exact (hpush.eq hl hk).symm

end Pushes

/-- The members of unions, which are wrapped. -/
def MessagePlan.wrapped (plan : MessagePlan) : List FieldPlan :=
  plan.fields.filter (·.oneof.isSome)

namespace Binder

variable {b : Binder} {id : MessageId} {plan : MessagePlan}

/-- The names of the types nested in a message. -/
def nestedTypes (b : Binder) (m : MessageNode) : List String :=
  (m.nested.map fun id => camelCaseScope (b.schema.message id).typeName) ++
    m.enums.map fun id => camelCaseScope (b.schema.enum id).typeName

theorem wrapperName_firstFree (b : Binder) (m : MessageNode) (type name : String) :
    ∃ k, b.wrapperName m type name = type ++ "_" ++ name ++ repeated k '_' ∧
      FirstFree (b.nestedTypes m) (type ++ "_" ++ name) k :=
  ⟨_, rfl, leastFrom_free (underscored_injective _) _⟩

theorem planMessage_wrapperName (h : b.planMessage id = .ok plan) :
    ∀ p ∈ plan.wrapped, p.wrapper = b.wrapperName (b.schema.message id)
      (b.messageType id) p.name := by
  refine foldlM_invariant (P := fun plan => ∀ p ∈ plan.wrapped, p.wrapper = b.wrapperName
    (b.schema.message id) (b.messageType id) p.name) h
    (by simp [MessagePlan.wrapped]) fun plan field plan' _ hplan hstep => ?_
  obtain ⟨p, next, rfl, -, -, -, hwrapper, hfinds⟩ := planField_adds hstep
  have hfields : next.fields = plan.fields := hfinds.fields_eq
  rw [MessagePlan.wrapped, filter_append, hfields, forall_mem_append]
  refine ⟨hplan, fun q hq => ?_⟩
  obtain ⟨hq, hsome⟩ := mem_filter.mp hq
  obtain rfl := mem_singleton.mp hq
  exact hwrapper hsome

/-- A wrapper has the fewest underscores that keep it apart from nested types. Two members have one
wrapper exactly if nested types push one of them onto the other. -/
theorem planMessage_wrappers (h : b.planMessage id = .ok plan) :
    let type := camelCaseScope (b.schema.message id).typeName
    let nested := b.nestedTypes (b.schema.message id)
    (∀ p ∈ plan.wrapped, p.wrapper ∉ nested ∧
      ∃ k ≤ nested.length, p.wrapper = type ++ "_" ++ p.name ++ repeated k '_' ∧
        ∀ j < k, type ++ "_" ++ p.name ++ repeated j '_' ∈ nested) ∧
    ((plan.wrapped.map (·.wrapper)).Nodup ↔ ∀ p ∈ plan.wrapped, ∀ q ∈ plan.wrapped,
      ¬ PushedOnto nested (type ++ "_" ++ p.name) (type ++ "_" ++ q.name)) := by
  intro type nested
  have hfirst (p : FieldPlan) (hp : p ∈ plan.wrapped) : ∃ k,
      p.wrapper = type ++ "_" ++ p.name ++ repeated k '_' ∧
      FirstFree nested (type ++ "_" ++ p.name) k := by
    rw [planMessage_wrapperName h p hp]
    exact b.wrapperName_firstFree _ _ _
  have hnames : (plan.wrapped.map (·.name)).Nodup :=
    (planMessage_named h).nodup_names.sublist (filter_sublist.map _)
  refine ⟨fun p hp => ?_, fun hnodup p hp q hq hpush => ?_, fun hapart => ?_⟩
  · obtain ⟨k, hwrapper, hk⟩ := hfirst p hp
    obtain ⟨n, hn, hfree⟩ := exists_free (underscored_injective (type ++ "_" ++ p.name)) nested
    exact ⟨hwrapper ▸ hk.1, k, (hk.2 hfree).trans hn, hwrapper, fun j hj => hk.taken_of_lt hj⟩
  · obtain ⟨k, hwrapper, hk⟩ := hfirst p hp
    obtain ⟨l, hwrapper', hl⟩ := hfirst q hq
    have heq := hwrapper.trans (((hk.eq_iff hl).mpr (.inr (.inl hpush))).trans hwrapper'.symm)
    obtain rfl := inj_on_of_nodup_map hnodup hp hq heq
    exact absurd hpush.length_lt (Nat.lt_irrefl _)
  · refine (Nodup.of_map _ hnames).map_on fun p hp q hq heq => ?_
    obtain ⟨k, hwrapper, hk⟩ := hfirst p hp
    obtain ⟨l, hwrapper', hl⟩ := hfirst q hq
    rcases (hk.eq_iff hl).mp (hwrapper.symm.trans (heq.trans hwrapper')) with
      hname | hpush | hpush
    · exact inj_on_of_nodup_map hnames hp hq ((String.append_right_inj _).mp hname)
    · exact absurd hpush (hapart p hp q hq)
    · exact absurd hpush (hapart q hq p hp)

/-- A message with a nested type that has the name of a member, and another member. -/
def wrapperRequest (member : String) : Descriptor.Request where
  filesToGenerate := ["c.proto"]
  files :=
    [{ name := some "c.proto", package := some "c"
       messages :=
        [{ name := some "M"
           fields :=
             [{ name := some "a", number := some 1, label := some 1, kind := some 5,
                oneofIndex := some 0 },
              { name := some member, number := some 2, label := some 1, kind := some 5,
                oneofIndex := some 0 }]
           nested := [{ name := some "A" }]
           oneofs := [{ name := some "u" }] }] }]

def wrapperBinder (member : String) : Binder := ⟨setupOf (wrapperRequest member), ⟨0⟩, []⟩

/-- The first member is pushed, but not as far as the second. -/
theorem planMessage_wrappers_apart :
    Setup.ofRequest (wrapperRequest "a__") = .ok (wrapperBinder "a__").setup ∧
    ∃ plan, (wrapperBinder "a__").planMessage ⟨0⟩ = .ok plan ∧
      plan.wrapped.map (·.wrapper) = ["M_A_", "M_A__"] ∧ (∀ p ∈ plan.wrapped, p.wrapper ≠ "M_A") ∧
      ∀ p ∈ plan.wrapped, ∀ q ∈ plan.wrapped,
        ¬ PushedOnto ["M_A"] ("M" ++ "_" ++ p.name) ("M" ++ "_" ++ q.name) := by
  have hsetup := eq_ok_of_isOk default (by decide +kernel :
    (Setup.ofRequest (wrapperRequest "a__")).isOk = true)
  have hplans : ∃ plan ∈ ((wrapperBinder "a__").planMessage ⟨0⟩).toOption,
      plan.wrapped.map (·.wrapper) = ["M_A_", "M_A__"] := by
    decide +kernel
  have hnested : camelCaseScope ((wrapperBinder "a__").schema.message ⟨0⟩).typeName = "M" ∧
      (wrapperBinder "a__").nestedTypes ((wrapperBinder "a__").schema.message ⟨0⟩) = ["M_A"] := by
    decide +kernel
  obtain ⟨plan, hplan, hwrappers⟩ := hplans
  have hplan := eq_ok_of_toOption hplan
  obtain ⟨hfree, hnodup⟩ := planMessage_wrappers hplan
  rw [hnested.1, hnested.2] at hnodup
  rw [hnested.2] at hfree
  refine ⟨hsetup, plan, hplan, hwrappers, fun p hp => by simpa using (hfree p hp).1, ?_⟩
  exact hnodup.mp (by rw [hwrappers]; decide)

/-- Two members whose names differ by the underscore that the nested type asks for. -/
theorem planMessage_wrapper_twice :
    Setup.ofRequest (wrapperRequest "a_") = .ok (wrapperBinder "a_").setup ∧
    (((wrapperBinder "a_").schema.message ⟨0⟩).proto.fields.map (·.nameText)).Nodup ∧
    ∃ plan, (wrapperBinder "a_").planMessage ⟨0⟩ = .ok plan ∧
      plan.wrapped.map (·.wrapper) = ["M_A_", "M_A_"] := by
  have hplans : ∃ plan ∈ ((wrapperBinder "a_").planMessage ⟨0⟩).toOption,
      plan.wrapped.map (·.wrapper) = ["M_A_", "M_A_"] := by
    decide +kernel
  obtain ⟨plan, hplan, hwrappers⟩ := hplans
  exact ⟨eq_ok_of_isOk default (by decide +kernel), by decide +kernel, plan,
    eq_ok_of_toOption hplan, hwrappers⟩

end Binder

end GoBindings
