import GoBindings.Bind.Part
import GoBindings.Proofs.Images
import GoBindings.Proofs.Situations

/-!
# Source paths

The path of a declaration leads through the descriptor of its file to what is declared, and so do
the places on the path alone. No two declarations of a file have the same path.
-/

namespace GoBindings

open List Text

namespace Descriptor

/-- What a source path leads to. -/
inductive Element where
  | message (m : Message)
  | enum (e : Enum)
  | field (f : Field)
  | oneof (o : Oneof)
  | value (v : EnumValue)

def Enum.at? (e : Enum) : List Nat → Option Element
  | [] => some (.enum e)
  | [2, i] => e.values[i]?.map .value
  | _ => none

def Message.at? : Message → List Nat → Option Element
  | m, [] => some (.message m)
  | m, [2, i] => m.fields[i]?.map .field
  | m, [8, i] => m.oneofs[i]?.map .oneof
  | m, 3 :: i :: path => m.nested[i]?.bind fun n => n.at? path
  | m, 4 :: i :: path => m.enums[i]?.bind fun e => e.at? path
  | _, _ => none

/-- Follows the field numbers of descriptors and the places in the fields. -/
def File.at? (f : File) : List Nat → Option Element
  | 4 :: i :: path => f.messages[i]?.bind fun m => m.at? path
  | 5 :: i :: path => f.enums[i]?.bind fun e => e.at? path
  | _ => none

def Message.nestedAt? : Message → List Nat → Option Message
  | m, [] => some m
  | m, i :: places => m.nested[i]?.bind fun n => n.nestedAt? places

def Message.enumAt? : Message → List Nat → Option Enum
  | _, [] => none
  | m, [i] => m.enums[i]?
  | m, i :: places => m.nested[i]?.bind fun n => n.enumAt? places

/-- The message at a place among those of the file, then among the nested ones, and so on. -/
def File.messageAt? (f : File) : List Nat → Option Message
  | [] => none
  | i :: places => f.messages[i]?.bind fun m => m.nestedAt? places

/-- The enum at the last place, in the message that the places before it lead to. -/
def File.enumAt? (f : File) : List Nat → Option Enum
  | [] => none
  | [i] => f.enums[i]?
  | i :: places => f.messages[i]?.bind fun m => m.enumAt? places

end Descriptor

namespace Schema

open Descriptor (File Message Element)
open Binder (places)

section Texts

/-- The numbers between the commas of a text. -/
def readPath? (text : String) : Option (List Nat) :=
  (Text.splitOn ',' text.toList).mapM fun digits =>
    if digits.all Char.isDigit then some (Nat.ofDigitChars 10 digits 0) else none

private theorem toList_toString (n : Nat) : (toString n).toList = Nat.toDigits 10 n := by
  rw [Nat.toString_eq_ofList_toDigits, String.toList_ofList]

private theorem isDigit_toDigits {n : Nat} {c : Char} (h : c ∈ Nat.toDigits 10 n) :
    c.isDigit = true :=
  Nat.isDigit_of_mem_toDigits (by decide) (by decide) h

private theorem splitOn_pathText (i : Nat) (path : List Nat) :
    Text.splitOn ',' (pathText (i :: path)).toList = (i :: path).map (Nat.toDigits 10) := by
  have hcomma (n : Nat) : ',' ∉ Nat.toDigits 10 n := fun h => by
    have hdigit := isDigit_toDigits h
    simp at hdigit
  induction path generalizing i with
  | nil =>
    show Text.splitOn ',' (toString i).toList = _
    rw [toList_toString, splitOn_of_not_mem (hcomma i)]
    rfl
  | cons j path ih =>
    have htext : (pathText (i :: j :: path)).toList =
        Nat.toDigits 10 i ++ ',' :: (pathText (j :: path)).toList := by
      simp [pathText, join]
    rw [htext, splitOn_append, splitOn_of_not_mem (hcomma i), ih]
    rfl

theorem readPath?_pathText {path : List Nat} (h : path ≠ []) :
    readPath? (pathText path) = some path := by
  obtain ⟨i, path, rfl⟩ := exists_cons_of_ne_nil h
  have hread (n : Nat) : (if (Nat.toDigits 10 n).all Char.isDigit then
      some (Nat.ofDigitChars 10 (Nat.toDigits 10 n) 0) else none) = some n := by
    rw [if_pos (all_eq_true.mpr fun c hc => isDigit_toDigits hc), Nat.ofDigitChars_ten_toDigits]
  rw [readPath?, splitOn_pathText, mapM_map]
  simp only [Function.comp_def, hread]
  exact mapM_pure |>.trans (by simp)

end Texts

section Leading

variable {f : File} {path : List Nat} {m n : Message} {i : Nat}

theorem places_append {p : List Nat} (q : List Nat) (h : p.length % 2 = 0) :
    places (p ++ q) = places p ++ places q := by
  fun_induction places p with
  | case1 tag place p ih =>
    rw [cons_append, cons_append, places, ih (by simp only [length_cons] at h; omega), cons_append]
  | case2 p hp =>
    match p with
    | [] => rfl
    | [_] => simp at h
    | tag :: place :: p => exact absurd rfl (hp tag place p)

/-- The path, and the places on it, lead to a message. -/
structure Leads (f : File) (path : List Nat) (m : Message) : Prop where
  even : path.length % 2 = 0
  element : ∀ rest, f.at? (path ++ rest) = m.at? rest
  message : ∀ rest, f.messageAt? (places path ++ rest) = m.nestedAt? rest
  enum : ∀ rest, rest ≠ [] → f.enumAt? (places path ++ rest) = m.enumAt? rest

theorem Leads.top (h : f.messages[i]? = some m) : Leads f [4, i] m where
  even := by simp
  element rest := by simp [File.at?, h]
  message rest := by simp [places, File.messageAt?, h]
  enum
    | [], hrest => absurd rfl hrest
    | j :: rest, _ => by simp [places, File.enumAt?, h]

theorem Leads.nested (h : Leads f path m) (hi : m.nested[i]? = some n) :
    Leads f (path ++ [3, i]) n where
  even := by simpa using h.even
  element rest := by
    rw [append_assoc, h.element]
    simp [Message.at?, hi]
  message rest := by
    rw [places_append _ h.even, append_assoc, h.message]
    simp [places, Message.nestedAt?, hi]
  enum rest hrest := by
    rw [places_append _ h.even, append_assoc, h.enum _ (by simp [places])]
    obtain ⟨j, rest, rfl⟩ := exists_cons_of_ne_nil hrest
    simp [places, Message.enumAt?, hi]

theorem Leads.enumAt? (h : Leads f path m) (j : Nat) :
    f.enumAt? (places (path ++ [4, j])) = m.enums[j]? := by
  rw [places_append _ h.even, h.enum _ (by simp [places])]
  rfl

end Leading

/-- The places of messages, from the outermost to the given one. -/
inductive Climbs (s : Schema) : Option MessageId → List Nat → Prop
  | top : s.Climbs none []
  | nested {id : MessageId} {outer : List Nat} (h : s.Climbs (s.message id).parent outer) :
    s.Climbs (some id) (outer ++ [(s.message id).index])

/-- A declaration with a path, or a part of one. -/
inductive Site where
  | message (id : MessageId)
  | enum (id : EnumId)
  | field (id : MessageId) (i : Nat)
  | oneof (id : MessageId) (i : Nat)
  | value (id : EnumId) (i : Nat)

namespace Site

variable (s : Schema)

def Declared : Site → Prop
  | .message id | .field id _ | .oneof id _ => id.index < s.messages.length
  | .enum id | .value id _ => id.index < s.enums.length

def file : Site → FileId
  | .message id | .field id _ | .oneof id _ => (s.message id).file
  | .enum id | .value id _ => (s.enum id).file

def path : Site → List Nat
  | .message id => (s.message id).path
  | .enum id => (s.enum id).path
  | .field id i => (s.message id).path ++ [2, i]
  | .oneof id i => (s.message id).path ++ [8, i]
  | .value id i => (s.enum id).path ++ [2, i]

def element : Site → Option Element
  | .message id => some (.message (s.message id).proto)
  | .enum id => some (.enum (s.enum id).proto)
  | .field id i => (s.message id).proto.fields[i]?.map .field
  | .oneof id i => (s.message id).proto.oneofs[i]?.map .oneof
  | .value id i => (s.enum id).proto.values[i]?.map .value

def In (f : FileNode) : Site → Prop
  | .message id | .field id _ | .oneof id _ => id ∈ f.messages
  | .enum id | .value id _ => id ∈ f.enums

def above : Site → Option Site
  | .message id => (s.message id).parent.map .message
  | .enum id => (s.enum id).parent.map .message
  | .field id _ | .oneof id _ => some (.message id)
  | .value id _ => some (.enum id)

/-- The last field number on the path, and the place in that field. -/
def last : Site → Nat × Nat
  | .message id => (if (s.message id).parent = none then 4 else 3, (s.message id).index)
  | .enum id => (if (s.enum id).parent = none then 5 else 4, (s.enum id).index)
  | .field _ i | .value _ i => (2, i)
  | .oneof _ i => (8, i)

end Site

section Files

variable {s : Schema} {owner : FileId} {f : FileNode}

theorem FileNode.Situated.message_path (h : f.Situated s) {m : MessageId} (hm : m ∈ f.messages) :
    (s.message m).path =
      ((s.message m).parent.map s.message).elim [4] (·.path ++ [3]) ++ [(s.message m).index] :=
  congrArg Prod.fst (h.messages m hm)

namespace FileNode.Mirrors

variable (hf : f.Mirrors s owner)

include hf

variable (hsituated : f.Situated s)

include hsituated

theorem leads (m : MessageId) (hm : m ∈ f.messages) :
    Leads f.proto (s.message m).path (s.message m).proto ∧
      s.Climbs (some m) (places (s.message m).path) := by
  -- the message around it has a lower number
  induction hn : m.index using Nat.strong_induction_on generalizing m with
  | _ n ih =>
  have hpath := hsituated.message_path hm
  have hproto := ((hf.message_inRow hm).spec hm rfl).1
  cases hparent : (s.message m).parent with
  | none =>
    rw [hparent] at hpath hproto
    rw [hpath]
    refine ⟨.top hproto, ?_⟩
    exact (.nested (hparent ▸ .top) : s.Climbs (some m) ([] ++ [(s.message m).index]))
  | some p =>
    obtain ⟨hp, hlt, -⟩ := (hf.messages m hm).2.parent p hparent
    obtain ⟨hleads, hclimbs⟩ := ih p.index (hn ▸ hlt) p hp rfl
    have hpath : (s.message m).path = (s.message p).path ++ [3, (s.message m).index] := by
      rw [hpath, hparent]
      simp
    rw [hparent] at hproto
    rw [hpath]
    refine ⟨hleads.nested hproto, ?_⟩
    rw [places_append _ hleads.even]
    exact .nested (hparent ▸ hclimbs)

theorem enum_leads (e : EnumId) (he : e ∈ f.enums) :
    (∀ rest, f.proto.at? ((s.enum e).path ++ rest) = (s.enum e).proto.at? rest) ∧
      f.proto.enumAt? (places (s.enum e).path) = some (s.enum e).proto ∧
      ∃ outer, s.Climbs (s.enum e).parent outer ∧
        places (s.enum e).path = outer ++ [(s.enum e).index] := by
  rw [hsituated.enums e he]
  have hproto := ((hf.enum_inRow he).spec he rfl).1
  cases hparent : (s.enum e).parent with
  | none =>
    rw [hparent] at hproto
    have hproto : f.proto.enums[(s.enum e).index]? = some (s.enum e).proto := hproto
    exact ⟨fun rest => by simp [EnumNode.situation, File.at?, hproto], hproto, [], .top, rfl⟩
  | some p =>
    obtain ⟨hp, -⟩ := (hf.enums e he).2.2 p hparent
    obtain ⟨hleads, hclimbs⟩ := hf.leads hsituated p hp
    rw [hparent] at hproto
    have hproto : (s.message p).proto.enums[(s.enum e).index]? = some (s.enum e).proto := hproto
    have hpath : (s.enum e).situation ((some p).map s.message) =
        (s.message p).path ++ [4, (s.enum e).index] := by
      simp [EnumNode.situation]
    rw [hpath]
    refine ⟨fun rest => ?_, (hleads.enumAt? _).trans hproto, _, hclimbs, ?_⟩
    · rw [append_assoc, hleads.element]
      simp [Message.at?, hproto]
    · rw [places_append _ hleads.even]
      rfl

theorem at?_path (a : Site) (ha : a.In f) : f.proto.at? (a.path s) = a.element s := by
  have hmessage (m : MessageId) (hm : m ∈ f.messages) (rest : List Nat) :
      f.proto.at? ((s.message m).path ++ rest) = (s.message m).proto.at? rest :=
    (hf.leads hsituated m hm).1.element rest
  have henum (e : EnumId) (he : e ∈ f.enums) (rest : List Nat) :
      f.proto.at? ((s.enum e).path ++ rest) = (s.enum e).proto.at? rest :=
    (hf.enum_leads hsituated e he).1 rest
  cases a with
  | message m =>
    have h := hmessage m ha []
    rwa [append_nil] at h
  | enum e =>
    have h := henum e ha []
    rwa [append_nil] at h
  | field m i => exact hmessage m ha [2, i]
  | oneof m i => exact hmessage m ha [8, i]
  | value e i => exact henum e ha [2, i]

/-- A path continues the one of the declaration around. -/
theorem path_eq (a : Site) (ha : a.In f) : (∀ b ∈ a.above s, b.In f) ∧
    a.path s = ((a.above s).elim [] (·.path s)) ++ [(a.last s).1, (a.last s).2] := by
  cases a with
  | message m =>
    refine ⟨fun b hb => ?_, ?_⟩
    · obtain ⟨p, hp, rfl⟩ := Option.map_eq_some_iff.mp hb
      exact ((hf.messages m ha).2.parent p hp).1
    · show (s.message m).path = _
      rw [hsituated.message_path ha]
      cases h : (s.message m).parent <;> simp [Site.above, Site.last, Site.path, h]
  | enum e =>
    refine ⟨fun b hb => ?_, ?_⟩
    · obtain ⟨p, hp, rfl⟩ := Option.map_eq_some_iff.mp hb
      exact ((hf.enums e ha).2.2 p hp).1
    · show (s.enum e).path = _
      rw [hsituated.enums e ha]
      cases h : (s.enum e).parent <;> simp [EnumNode.situation, Site.above, Site.last, Site.path, h]
  | _ =>
    refine ⟨fun b hb => ?_, rfl⟩
    cases hb
    exact ha

theorem path_ne_nil (a : Site) (ha : a.In f) : a.path s ≠ [] := by
  rw [(hf.path_eq hsituated a ha).2]
  simp

omit hsituated in
theorem eq_of_above {a b : Site} (ha : a.In f) (hb : b.In f) (habove : a.above s = b.above s)
    (hlast : a.last s = b.last s) : a = b := by
  have hinj : Function.Injective Site.message := fun _ _ h => Site.message.inj h
  cases a <;> cases b <;> simp only [Site.last, Site.above, Prod.mk.injEq] at hlast habove
  case message.message a b =>
    exact congrArg _ ((hf.message_inRow hb).eq ha hb (Option.map_injective hinj habove) rfl hlast.2)
  case enum.enum a b =>
    exact congrArg _ ((hf.enum_inRow hb).eq ha hb (Option.map_injective hinj habove) rfl hlast.2)
  case message.enum a b =>
    rw [Option.map_injective hinj habove] at hlast
    split at hlast <;> simp at hlast
  case enum.message a b =>
    rw [Option.map_injective hinj habove] at hlast
    split at hlast <;> simp at hlast
  all_goals grind

theorem path_injective {a b : Site} (ha : a.In f) (hb : b.In f) (h : a.path s = b.path s) :
    a = b := by
  induction hn : (a.path s).length using Nat.strong_induction_on generalizing a b with
  | _ n ih =>
  obtain ⟨haAbove, haPath⟩ := hf.path_eq hsituated a ha
  obtain ⟨hbAbove, hbPath⟩ := hf.path_eq hsituated b hb
  obtain ⟨houter, hlast⟩ := append_inj' (haPath.symm.trans (h.trans hbPath)) rfl
  refine hf.eq_of_above ha hb ?_ (by simpa [Prod.ext_iff] using hlast)
  cases hp : a.above s with
  | none =>
    cases hq : b.above s with
    | none => rfl
    | some q =>
      rw [hp, hq] at houter
      exact absurd houter.symm (hf.path_ne_nil hsituated q (hbAbove q hq))
  | some p =>
    cases hq : b.above s with
    | none =>
      rw [hp, hq] at houter
      exact absurd houter (hf.path_ne_nil hsituated p (haAbove p hp))
    | some q =>
      rw [hp, hq] at houter
      have hshort : (p.path s).length < n := by
        rw [← hn, haPath, hp]
        simp
      exact congrArg some (ih _ hshort (haAbove p hp) (hbAbove q hq) houter rfl)

end FileNode.Mirrors

end Files

section Paths

variable {s : Schema} {files : List File}

theorem Mirrors.site_listed (hs : s.Mirrors files) {a : Site} (ha : a.Declared s) :
    ∃ i f, s.files[i]? = some f ∧ a.file s = ⟨i⟩ ∧ s.file ⟨i⟩ = f ∧ a.In f := by
  have hmessage (id : MessageId) (h : id.index < s.messages.length) :
      ∃ i f, s.files[i]? = some f ∧ (s.message id).file = ⟨i⟩ ∧ s.file ⟨i⟩ = f ∧
        id ∈ f.messages := by
    obtain ⟨i, f, hf, hmem⟩ := hs.exists_message id h
    exact ⟨i, f, hf, ((hs.files i f hf).1.messages id hmem).2.file, file_eq_of_getElem? hf, hmem⟩
  have henum (id : EnumId) (h : id.index < s.enums.length) :
      ∃ i f, s.files[i]? = some f ∧ (s.enum id).file = ⟨i⟩ ∧ s.file ⟨i⟩ = f ∧ id ∈ f.enums := by
    obtain ⟨i, f, hf, hmem⟩ := hs.exists_enum id h
    exact ⟨i, f, hf, ((hs.files i f hf).1.enums id hmem).2.1, file_eq_of_getElem? hf, hmem⟩
  cases a with
  | message id | field id _ | oneof id _ => exact hmessage id ha
  | enum id | value id _ => exact henum id ha

/-- Paths lead to what is declared, also by their places alone, which are those of the messages
around. The texts of two paths in a file differ. -/
theorem paths_lead (h : ofFiles files = .ok s) :
    (∀ a : Site, a.Declared s → (s.file (a.file s)).proto.at? (a.path s) = a.element s ∧
      readPath? (pathText (a.path s)) = some (a.path s)) ∧
    (∀ id : MessageId, id.index < s.messages.length →
      (s.file (s.message id).file).proto.messageAt? (places (s.message id).path) =
        some (s.message id).proto ∧ s.Climbs (some id) (places (s.message id).path)) ∧
    (∀ id : EnumId, id.index < s.enums.length →
      (s.file (s.enum id).file).proto.enumAt? (places (s.enum id).path) =
        some (s.enum id).proto ∧ ∃ outer, s.Climbs (s.enum id).parent outer ∧
          places (s.enum id).path = outer ++ [(s.enum id).index]) ∧
    ∀ a b : Site, a.Declared s → b.Declared s → a.file s = b.file s →
      pathText (a.path s) = pathText (b.path s) → a = b := by
  have hs := ofFiles_mirrors h
  have hsituated {i : Nat} {f : FileNode} (hf : s.files[i]? = some f) : f.Situated s :=
    ofFiles_situated h f (mem_of_getElem? hf)
  have hread {a : Site} (ha : a.Declared s) :
      readPath? (pathText (a.path s)) = some (a.path s) := by
    obtain ⟨i, f, hf, -, -, hin⟩ := hs.site_listed ha
    exact readPath?_pathText ((hs.files i f hf).1.path_ne_nil (hsituated hf) a hin)
  refine ⟨fun a ha => ⟨?_, hread ha⟩, fun id hid => ?_, fun id hid => ?_,
    fun a b ha hb hfile htext => ?_⟩
  · obtain ⟨i, f, hf, hfile, rfl, hin⟩ := hs.site_listed ha
    rw [hfile]
    exact (hs.files i _ hf).1.at?_path (hsituated hf) a hin
  · obtain ⟨i, f, hf, hfile, rfl, hin⟩ := hs.site_listed (a := .message id) hid
    obtain ⟨hleads, hclimbs⟩ := (hs.files i _ hf).1.leads (hsituated hf) id hin
    have hfile : (s.message id).file = ⟨i⟩ := hfile
    rw [hfile]
    have hmessage := hleads.message []
    rw [append_nil] at hmessage
    exact ⟨hmessage, hclimbs⟩
  · obtain ⟨i, f, hf, hfile, rfl, hin⟩ := hs.site_listed (a := .enum id) hid
    have hfile : (s.enum id).file = ⟨i⟩ := hfile
    rw [hfile]
    exact ((hs.files i _ hf).1.enum_leads (hsituated hf) id hin).2
  · obtain ⟨i, f, hf, hafile, hf', hain⟩ := hs.site_listed ha
    obtain ⟨j, g, hg, hbfile, hg', hbin⟩ := hs.site_listed hb
    obtain rfl : i = j := congrArg FileId.index (hafile.symm.trans (hfile.trans hbfile))
    obtain rfl := hf'.symm.trans hg'
    have hpath := hread ha
    rw [htext, hread hb] at hpath
    exact (hs.files i _ hf).1.path_injective (hsituated hf) hain hbin
      (Option.some.inj hpath).symm

theorem paths_lead_inner : ∃ s, ofFiles nestedFiles = .ok s ∧ (s.message ⟨1⟩).path = [4, 0, 3, 0] ∧
    (s.file ⟨0⟩).proto.messageAt? [0, 0] = some (s.message ⟨1⟩).proto :=
  ⟨_, rfl, rfl, ((paths_lead (rfl : ofFiles nestedFiles = .ok _)).2.1 ⟨1⟩ (by decide)).1⟩

end Paths

end Schema

end GoBindings
