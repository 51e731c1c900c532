import GoBindings.Proofs.SafeRequests

/-!
# Tags as raw literals

A tag is printed between two raw quotes. It is read as one literal unless a text that is copied into
it, a default or a JSON name, holds a raw quote itself.
-/

namespace GoBindings

open Schema Go Setup

/-- A text that is one token, a literal. -/
def Go.IsLiteral (text : String) : Prop := ∃ t, scan text = .ok [t] ∧ t.kind = .literal

theorem Go.StructTag.isLiteral_lexeme {tag : StructTag} :
    IsLiteral tag.lexeme.text ↔ Unquoted tag.text := by
  rw [Unquoted, ← stands_raw]
  constructor
  · rintro ⟨⟨⟨kind, text⟩, position⟩, hscan, hkind⟩
    obtain rfl : kind = .literal := hkind
    obtain ⟨xs, hchars, hlexed, htokens⟩ := exists_lexed_of_scan hscan
    have hxs := congrArg (List.map (·.toLexeme)) htokens
    rw [placed_map] at hxs
    subst hxs
    obtain rfl : text = tag.lexeme.text := String.toList_inj.mp (by simpa using hchars.symm)
    exact ⟨hlexed.1, rfl⟩
  · intro hstands
    have hlexed : Lexed sourceStart [tag.lexeme] :=
      ⟨hstands.1, fun h => absurd h.2 (by decide), trivial⟩
    exact ⟨_, scan_spell (by simp) hlexed, rfl⟩

namespace Binder

variable {b : Binder} {id : MessageId} {plan : MessagePlan}

/-- The tags of a field in the struct of its message and in its wrapper are literals exactly if no
text that they copy holds a raw quote. -/
theorem planMessage_tags {r : Descriptor.Request} (hs : ofRequest r = .ok b.setup)
    (hplain : ∀ f ∈ r.files, f.PlainWith fun field => isIdentifier field.nameText = true)
    (hpackages : ∀ f ∈ r.files, Unquoted (f.package.getD ""))
    (hid : id.index < b.schema.messages.length) (hplan : b.planMessage id = .ok plan) :
    ∀ p ∈ plan.fields,
      (IsLiteral p.structTag.lexeme.text ↔
        ∀ field ∈ p.tagged b, ∀ text ∈ field.copied, Unquoted text) ∧
      ∃ tag, wrapperDecl p = .wrapper p.wrapper p.name p.type tag ∧
        (IsLiteral tag.lexeme.text ↔ ∀ text ∈ p.field.copied, Unquoted text) := by
  intro p hp
  have hsound := ofRequest_sound hs hplain
  have hmade := planMessage_made hplan p hp
  refine ⟨?_, _, rfl, ?_⟩
  · rw [StructTag.isLiteral_lexeme]
    exact hmade.structTag_unquoted_iff hsound hid (fun _ hname => hname) hpackages
  · rw [StructTag.isLiteral_lexeme, StructTag.unquoted_text,
      ← hmade.tag_unquoted_iff hsound hid (fun _ hname => hname) hpackages]
    simp +decide

/-- A message whose fields, one of them a member of a union, copy a text into their tags. -/
def copiedRequest (text : String) : Descriptor.Request where
  filesToGenerate := ["a.proto"]
  files :=
    [{ name := some "a.proto", package := some "p"
       messages :=
        [{ name := some "M"
           fields :=
             [{ name := some "f", number := some 1, label := some 1, kind := some 9,
                defaultValue := some text },
              { name := some "g", number := some 2, label := some 1, kind := some 12,
                jsonName := some text, oneofIndex := some 0 }]
           oneofs := [{ name := some "u" }] }] }]

def copiedBinder (text : String) : Binder := ⟨setupOf (copiedRequest text), ⟨0⟩, []⟩

/-- Quotes, backslashes and line feeds are no raw quotes. -/
theorem planMessage_tags_escaped :
    ofRequest (copiedRequest "\"\\\n'") = .ok (copiedBinder "\"\\\n'").setup ∧
    ∃ plan, (copiedBinder "\"\\\n'").planMessage ⟨0⟩ = .ok plan ∧
      plan.fields.map (·.name) = ["F", "G"] ∧
      ∀ p ∈ plan.fields, IsLiteral p.structTag.lexeme.text ∧
        ∃ tag, wrapperDecl p = .wrapper p.wrapper p.name p.type tag ∧
          IsLiteral tag.lexeme.text := by
  have hs := eq_ok_of_isOk default (by decide +kernel :
    (ofRequest (copiedRequest "\"\\\n'")).isOk = true)
  have hplans : ∃ plan ∈ ((copiedBinder "\"\\\n'").planMessage ⟨0⟩).toOption,
      plan.fields.map (·.name) = ["F", "G"] ∧
      ∀ p ∈ plan.fields, (∀ field ∈ p.tagged (copiedBinder "\"\\\n'"), ∀ text ∈ field.copied,
        Unquoted text) ∧ ∀ text ∈ p.field.copied, Unquoted text := by
    decide +kernel
  obtain ⟨plan, hplan, hnames, hcopied⟩ := hplans
  have hplan := eq_ok_of_toOption hplan
  refine ⟨hs, plan, hplan, hnames, fun p hp => ?_⟩
  obtain ⟨hstruct, tag, htag, hwrapper⟩ := planMessage_tags (b := copiedBinder _) hs
    (by decide +kernel) (by decide) (by decide +kernel) hplan p hp
  exact ⟨hstruct.mpr (hcopied p hp).1, tag, htag, hwrapper.mpr (hcopied p hp).2⟩

/-- A raw quote ends the tags of both fields. -/
theorem planMessage_tag_broken :
    ofRequest (copiedRequest "a`b") = .ok (copiedBinder "a`b").setup ∧
    (∀ f ∈ (copiedRequest "a`b").files,
      f.PlainWith fun field => isIdentifier field.nameText = true) ∧
    ∃ plan, (copiedBinder "a`b").planMessage ⟨0⟩ = .ok plan ∧
      plan.fields.map (·.name) = ["F", "G"] ∧
      ∀ p ∈ plan.fields, ¬ IsLiteral p.structTag.lexeme.text ∧
        ∃ tag, wrapperDecl p = .wrapper p.wrapper p.name p.type tag ∧
          ¬ IsLiteral tag.lexeme.text := by
  have hplans : ∃ plan ∈ ((copiedBinder "a`b").planMessage ⟨0⟩).toOption,
      plan.fields.map (·.name) = ["F", "G"] ∧ ∀ p ∈ plan.fields, ¬ Unquoted p.structTag.text ∧
        ¬ Unquoted (StructTag.text ⟨[("protobuf", p.tag.quoted)]⟩) := by
    decide +kernel
  obtain ⟨plan, hplan, hnames, hquoted⟩ := hplans
  refine ⟨eq_ok_of_isOk default (by decide +kernel), by decide +kernel, plan,
    eq_ok_of_toOption hplan, hnames, fun p hp => ⟨?_, _, rfl, ?_⟩⟩
  · rw [StructTag.isLiteral_lexeme]
    exact (hquoted p hp).1
  · rw [StructTag.isLiteral_lexeme]
    exact (hquoted p hp).2

end Binder

end GoBindings
