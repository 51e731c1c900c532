import GoBindings.Bind.Enum
import GoBindings.Proofs.TagReading

/-!
# Tables of enums

An enum comes with a constant for each of its values, a map from numbers to names and a map from
names to numbers. Values may share a number, which then goes by the name that is declared first.
-/

namespace GoBindings

open List Schema Go Descriptor

namespace Go

/-- The number that an expression spells. -/
def Expr.integer? : Expr → Option Int
  | .number text => decimal? text
  | _ => none

/-- The text that an expression quotes. -/
def Expr.string? : Expr → Option String
  | .literal text => Text.unquote? text
  | _ => none

/-- The keys of a map literal with their values, in order. Comments do not count. -/
def Entry.pairs? {α β : Type} (key : Expr → Option α) (value : Expr → Option β) :
    List Entry → Option (List (α × β))
  | [] => some []
  | .comment _ :: es => pairs? key value es
  | .keyed k v :: es => do return (← key k, ← value v) :: (← pairs? key value es)
  | _ :: _ => none

/-- The name of a constant, its type and its number. -/
def ConstEntry.constant? : ConstEntry → Option (String × String × Int)
  | .constant name type n => some (name, type, n.toInt)
  | .comment _ => none

def Decl.constants? : Decl → Option (List ConstEntry)
  | .constants entries => some entries
  | _ => none

def Decl.table? : Decl → Option (String × TypeExpr × List Entry)
  | .table name _ type entries => some (name, type, entries)
  | _ => none

theorem Expr.integer?_int (n : Int) : (Expr.int n).integer? = some n := decimal?_int n

theorem Expr.string?_quoted (s : String) : (Expr.quoted s).string? = some s := Text.unquote?_quote s

end Go

/-- The name of a value with its number. -/
def Descriptor.EnumValue.named (v : EnumValue) : String × Int :=
  (v.name.getD "", (v.number.getD 0).toInt)

/-- The numbers that were not seen before, each with its first name. -/
def firstNames (seen : List Int) : List (String × Int) → List (Int × String)
  | [] => []
  | v :: vs =>
    if v.2 ∈ seen then firstNames seen vs else (v.2, v.1) :: firstNames (v.2 :: seen) vs

section FirstNames

variable {seen : List Int} {values : List (String × Int)} {n : Int} {name : String}

theorem mem_firstNames : (n, name) ∈ firstNames seen values ↔
    n ∉ seen ∧ values.find? (·.2 = n) = some (name, n) := by
  induction values generalizing seen with
  | nil => simp [firstNames]
  | cons v values ih =>
    obtain ⟨first, number⟩ := v
    rw [firstNames]
    split
    · rename_i hseen
      rw [ih]
      by_cases hn : number = n
      · simp [← hn, show number ∈ seen from hseen]
      · simp [hn]
    · rename_i hseen
      rw [mem_cons, ih]
      by_cases hn : number = n
      · subst hn
        simpa [eq_comm] using fun _ => hseen
      · simp [hn, Ne.symm hn]

theorem nodup_firstNames : ((firstNames seen values).map Prod.fst).Nodup := by
  induction values generalizing seen with
  | nil => exact .nil
  | cons v values ih =>
    rw [firstNames]
    split
    · exact ih
    · refine nodup_cons.mpr ⟨fun hmem => ?_, ih⟩
      obtain ⟨⟨n, name⟩, hmem, heq⟩ := mem_map.mp hmem
      exact (mem_firstNames.mp hmem).1 (by simp [← show n = v.2 from heq])

theorem mem_keys_firstNames : n ∈ (firstNames [] values).map Prod.fst ↔
    n ∈ values.map Prod.snd := by
  constructor
  · intro h
    obtain ⟨⟨n, name⟩, hmem, rfl⟩ := mem_map.mp h
    exact mem_map.mpr ⟨_, mem_of_find?_eq_some (mem_firstNames.mp hmem).2, rfl⟩
  · intro h
    obtain ⟨v, hv, rfl⟩ := mem_map.mp h
    obtain ⟨w, hw⟩ := Option.isSome_iff_exists.mp
      (find?_isSome.mpr ⟨v, hv, by simp⟩ : (values.find? (·.2 = v.2)).isSome = true)
    have hnumber : w.2 = v.2 := by simpa using find?_some hw
    refine mem_map.mpr ⟨(v.2, w.1), mem_firstNames.mpr ⟨by simp, ?_⟩, rfl⟩
    rw [hw, ← hnumber]

end FirstNames

theorem lookup_of_nodup {α β : Type} [BEq α] [LawfulBEq α] {entries : List (α × β)} {a : α} {b : β}
    (hkeys : (entries.map Prod.fst).Nodup) (h : (a, b) ∈ entries) : entries.lookup a = some b := by
  obtain ⟨before, after, rfl⟩ := append_of_mem h
  refine lookup_eq_some_iff.mpr ⟨before, after, rfl, fun p hp => ?_⟩
  rw [map_append, nodup_append] at hkeys
  exact bne_iff_ne.mpr fun heq => hkeys.2.2 _ (mem_map_of_mem hp) _ (by simp) heq.symm

namespace Binder

variable {b : Binder} {node : EnumNode} {type : String}

theorem constantEntries_constants (i : Nat) (values : List EnumValue) :
    (b.constantEntries node type i values).filterMap ConstEntry.constant? =
      (values.map EnumValue.named).map fun v =>
        (node.constantPrefix ++ v.1, type, v.2) := by
  induction values generalizing i with
  | nil => rfl
  | cons v values ih =>
    have hcomments : ((b.commentAt (node.path ++ [2, i])).map ConstEntry.comment).filterMap
        ConstEntry.constant? = [] := by
      simp [ConstEntry.constant?]
    rw [constantEntries, filterMap_append, hcomments, filterMap_cons, ih]
    rfl

theorem pairs?_numberEntries (values : List EnumValue) :
    Entry.pairs? Expr.string? Expr.integer? (numberEntries values) =
      some (values.map EnumValue.named) := by
  induction values with
  | nil => rfl
  | cons v values ih =>
    rw [numberEntries] at ih
    simp [numberEntries, Entry.pairs?, Expr.string?_quoted, Expr.integer?_int, ih,
      EnumValue.named]

theorem contains_number (seen : List Int32) (v : EnumValue) :
    seen.contains (v.number.getD 0) = true ↔ v.named.2 ∈ seen.map Int32.toInt := by
  rw [contains_iff_mem, ← mem_map_of_injective fun _ _ => Int32.toInt_inj.mp]
  rfl

theorem pairs?_nameEntries (seen : List Int32) (values : List EnumValue) :
    Entry.pairs? Expr.integer? Expr.string? (nameEntries seen values) =
      some (firstNames (seen.map Int32.toInt) (values.map EnumValue.named)) := by
  induction values generalizing seen with
  | nil => rfl
  | cons v values ih =>
    simp only [nameEntries, map_cons, firstNames, ← contains_number]
    split
    · exact ih seen
    · simp [Entry.pairs?, Expr.integer?_int, Expr.string?_quoted, ih, EnumValue.named]

/-- The entry of a value in the map from numbers to names. -/
def nameEntry (v : String × Int) (taken : Bool) : Entry :=
  if taken then .comment (" Duplicate value: " ++ toString v.2 ++ ": " ++ Text.quote v.1 ++ ",")
  else .keyed (.int v.2) (.quoted v.1)

theorem getElem?_nameEntries (seen : List Int32) (values : List EnumValue) (i : Nat) :
    (nameEntries seen values)[i]? = (values.map EnumValue.named)[i]?.map fun v =>
      nameEntry v (v.2 ∈ seen.map Int32.toInt ++
        ((values.map EnumValue.named).take i).map Prod.snd) := by
  induction values generalizing seen i with
  | nil => rfl
  | cons v values ih =>
    have hstep : ∃ seen', nameEntries seen (v :: values) =
        nameEntry v.named (v.named.2 ∈ seen.map Int32.toInt) :: nameEntries seen' values ∧
        ∀ n, n ∈ seen'.map Int32.toInt ↔ n = v.named.2 ∨ n ∈ seen.map Int32.toInt := by
      simp only [nameEntries, contains_number]
      split
      · rename_i h
        refine ⟨seen, by simp only [h]; rfl, fun n => ?_⟩
        exact ⟨.inr, fun hn => hn.elim (fun hn => hn ▸ h) id⟩
      · rename_i h
        exact ⟨v.number.getD 0 :: seen, by simp only [h]; rfl, fun n => mem_cons⟩
    obtain ⟨seen', hentries, hseen⟩ := hstep
    rw [hentries]
    cases i with
    | zero => simp
    | succ i =>
      simp only [getElem?_cons_succ, ih, map_cons, take_succ_cons, mem_append,
        mem_cons, hseen]
      congr! 4
      tauto

theorem filterMap_enumDecls {α : Type} {f : Decl → Option α}
    (hcomment : ∀ text, f (.comment text) = none) (hfunc : ∀ g, f (.func g) = none)
    (htype : ∀ name t, f (.typeDef name t) = none) (hblank : f .blank = none) :
    (b.enumDecls node).filterMap f =
      [.constants (b.constantEntries node (camelCaseScope node.typeName) 0 node.proto.values),
       .table (camelCaseScope node.typeName ++ "_name") false
        (.map (.name "int32") (.name "string")) (nameEntries [] node.proto.values),
       .table (camelCaseScope node.typeName ++ "_value") false
        (.map (.name "string") (.name "int32")) (numberEntries node.proto.values)].filterMap f := by
  have hmethods (c : Prop) [Decidable c] (g : Func) :
      (if c then [] else [Decl.func g]).filterMap f = [] ∧
        (if c then [Decl.func g] else []).filterMap f = [] := by
    split <;> simp [hfunc]
  have hcomments : ((b.commentAt node.path).map Decl.comment).filterMap f = [] := by
    simp [hcomment]
  simp only [enumDecls, filterMap_append, hcomments, hmethods,
    filterMap_cons_none (htype _ _), filterMap_cons_none (hfunc _),
    filterMap_cons_none hblank, filterMap_nil, append_nil, nil_append]

/-- The tables of an enum whose values have names of their own. -/
theorem enumDecls_tables (b : Binder) (node : EnumNode)
    (hnames : (node.proto.values.map (·.name.getD "")).Nodup) :
    let type := camelCaseScope node.typeName
    let values := node.proto.values.map EnumValue.named
    ∃ constants names numbers byNumber,
      (b.enumDecls node).filterMap Decl.constants? = [constants] ∧
      (b.enumDecls node).filterMap Decl.table? =
        [(type ++ "_name", .map (.name "int32") (.name "string"), names),
         (type ++ "_value", .map (.name "string") (.name "int32"), numbers)] ∧
      constants.filterMap ConstEntry.constant? =
        values.map (fun v => (node.constantPrefix ++ v.1, type, v.2)) ∧
      Entry.pairs? Expr.string? Expr.integer? numbers = some values ∧
      Entry.pairs? Expr.integer? Expr.string? names = some byNumber ∧
      (byNumber.map Prod.fst).Nodup ∧
      (∀ n, n ∈ byNumber.map Prod.fst ↔ n ∈ values.map Prod.snd) ∧
      (∀ n name, (n, name) ∈ byNumber ↔ values.find? (·.2 = n) = some (name, n)) ∧
      (∀ i, names[i]? = values[i]?.map fun v => nameEntry v (v.2 ∈ (values.take i).map Prod.snd)) ∧
      ∀ v ∈ values, values.lookup v.1 = some v.2 ∧
        byNumber.lookup v.2 = (values.find? (·.2 = v.2)).map Prod.fst := by
  intro type values
  have hkeys : (values.map Prod.fst).Nodup := by
    simpa [values, Function.comp_def, EnumValue.named] using hnames
  refine ⟨b.constantEntries node type 0 node.proto.values, _, _, firstNames [] values, ?_, ?_,
    constantEntries_constants 0 node.proto.values,
    pairs?_numberEntries node.proto.values, pairs?_nameEntries [] node.proto.values,
    nodup_firstNames, fun n => mem_keys_firstNames, fun n name => by simp [mem_firstNames],
    getElem?_nameEntries [] node.proto.values, fun v hv => ?_⟩
  · rw [filterMap_enumDecls (fun _ => rfl) (fun _ => rfl) (fun _ _ => rfl) rfl]
    rfl
  · rw [filterMap_enumDecls (fun _ => rfl) (fun _ => rfl) (fun _ _ => rfl) rfl]
    rfl
  · refine ⟨lookup_of_nodup hkeys hv, ?_⟩
    obtain ⟨⟨n, name⟩, hmem, hn⟩ := mem_map.mp
      (mem_keys_firstNames.mpr (mem_map_of_mem (f := Prod.snd) hv))
    obtain rfl : n = v.2 := hn
    rw [lookup_of_nodup nodup_firstNames hmem, (mem_firstNames.mp hmem).2]
    rfl

private def aliased : EnumNode :=
  { (default : EnumNode) with
    typeName := ["Color"]
    proto.values := [⟨some "RED", some 1, none⟩, ⟨some "CRIMSON", some 1, none⟩] }

/-- The second name of a number is a comment. -/
theorem enumDecls_tables_aliased : ∃ names numbers,
    ((Binder.mk default ⟨0⟩ []).enumDecls aliased).filterMap Decl.table? =
      [("Color_name", .map (.name "int32") (.name "string"), names),
       ("Color_value", .map (.name "string") (.name "int32"), numbers)] ∧
    names[1]? = some (.comment " Duplicate value: 1: \"CRIMSON\",") := by
  obtain ⟨_, names, numbers, _, -, htables, -, -, -, -, -, -, hplaces, -⟩ :=
    enumDecls_tables ⟨default, ⟨0⟩, []⟩ aliased (by decide)
  exact ⟨names, numbers, htables, (hplaces 1).trans rfl⟩

end Binder

end GoBindings
