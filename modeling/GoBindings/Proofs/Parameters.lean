import GoBindings.Parameters
import GoBindings.Proofs.Dicts

/-!
# Parameters follow from their pairs

The typed parameters are kept in step with the dictionary of all pairs, so that they can be read off
it. Of several pairs with one key the last counts, and the order of others does not matter.
-/

namespace GoBindings.Parameters

open List Text

/-- The keys and values of a parameter text in order. -/
def pairs (parameter : String) : List (String × String) :=
  ((Text.splitOn ',' parameter.toList).filter (!·.isEmpty)).map keyValue

/-- The typed parameters agree with the pairs. -/
structure Consistent (p : Parameters) : Prop where
  raw : p.raw.Sorted
  importPrefix : p.importPrefix = (p.raw.get? "import_prefix").getD ""
  importPath : p.importPath = (p.raw.get? "import_path").getD ""
  plugins : p.plugins = (p.raw.get? "plugins").map pluginList
  sorted_importMap : p.importMap.Sorted
  importMap : ∀ file, p.importMap.get? file = p.raw.get? ("M" ++ file)

/-- The parameters are those of some pairs. -/
structure ReadOff (p : Parameters) (pairs : List (String × String)) : Prop where
  raw : ∀ key, p.raw.get? key = pairs.reverse.lookup key
  importPrefix : p.importPrefix = (p.raw.get? "import_prefix").getD ""
  importPath : p.importPath = (p.raw.get? "import_path").getD ""
  importMap : ∀ file value,
    (file, value) ∈ p.importMap.entries ↔ ("M" ++ file, value) ∈ p.raw.entries
  plugins_none : p.plugins = none ↔ p.raw.get? "plugins" = none
  plugins_nil : p.plugins = some [] ↔ p.raw.get? "plugins" = some ""
  plugins_list : ∀ value, p.raw.get? "plugins" = some value → value ≠ "" →
    p.plugins = some ((Text.splitOn '+' value.toList).map String.ofList)

section Insert

variable (p : Parameters) (key value : String)

theorem raw_insert : (p.insert key value).raw = p.raw.insert key value := by
  unfold insert
  split_ifs
  · rfl
  · rfl
  · rfl
  · split <;> rfl

theorem importPrefix_insert : (p.insert key value).importPrefix =
    if key = "import_prefix" then value else p.importPrefix := by
  unfold insert
  split_ifs
  · rfl
  · rfl
  · rfl
  · split <;> rfl

theorem importPath_insert : (p.insert key value).importPath =
    if key = "import_path" then value else p.importPath := by
  unfold insert
  split_ifs with hpre hpath
  · simp [hpre] at hpath
  · rfl
  · rfl
  · rfl
  · split <;> rfl

theorem plugins_insert : (p.insert key value).plugins =
    if key = "plugins" then some (pluginList value) else p.plugins := by
  unfold insert
  split_ifs with hpre hplugins hpath hplugins
  · simp [hpre] at hplugins
  · rfl
  · simp [hpath] at hplugins
  · rfl
  · rfl
  · split <;> rfl

theorem importMap_insert : (p.insert key value).importMap =
    match key.toList with
    | 'M' :: file => p.importMap.insert (String.ofList file) value
    | _ => p.importMap := by
  unfold insert
  split_ifs with hpre hpath hplugins
  · rw [hpre]
    rfl
  · rw [hpath]
    rfl
  · rw [hplugins]
    rfl
  · split <;> simp_all

end Insert

variable {p q : Parameters}

theorem get?_importMap_insert (key value file : String) :
    (p.insert key value).importMap.get? file =
      if "M" ++ file = key then some value else p.importMap.get? file := by
  rw [importMap_insert]
  split
  · rename_i file' hkey
    have hiff : "M" ++ file = key ↔ file = String.ofList file' := by
      rw [← String.toList_inj, hkey, ← @String.toList_inj file]
      simp
    rw [Dict.get?_insert, if_congr hiff rfl rfl]
  · rename_i hkey
    have hne : "M" ++ file ≠ key := by
      rintro rfl
      exact hkey file.toList (by simp)
    rw [if_neg hne]

theorem Consistent.insert (h : p.Consistent) (key value : String) :
    (p.insert key value).Consistent := by
  constructor
  · rw [raw_insert]
    exact h.raw.insert key value
  · rw [importPrefix_insert, raw_insert, Dict.get?_insert, h.importPrefix]
    by_cases hkey : key = "import_prefix" <;> simp [hkey, eq_comm]
  · rw [importPath_insert, raw_insert, Dict.get?_insert, h.importPath]
    by_cases hkey : key = "import_path" <;> simp [hkey, eq_comm]
  · rw [plugins_insert, raw_insert, Dict.get?_insert, h.plugins]
    by_cases hkey : key = "plugins" <;> simp [hkey, eq_comm]
  · rw [importMap_insert]
    split
    · exact h.sorted_importMap.insert _ _
    · exact h.sorted_importMap
  · intro file
    rw [get?_importMap_insert, raw_insert, Dict.get?_insert, h.importMap]

theorem Consistent.ext (hp : p.Consistent) (hq : q.Consistent) (h : p.raw = q.raw) : p = q := by
  have hmap : p.importMap = q.importMap := by
    apply hp.sorted_importMap.ext hq.sorted_importMap
    intro file
    rw [hp.importMap, hq.importMap, h]
  have hpre : p.importPrefix = q.importPrefix := by rw [hp.importPrefix, hq.importPrefix, h]
  have hpath : p.importPath = q.importPath := by rw [hp.importPath, hq.importPath, h]
  have hplugins : p.plugins = q.plugins := by rw [hp.plugins, hq.plugins, h]
  cases p
  simp_all

theorem parse_eq_foldl (parameter : String) :
    parse parameter = (pairs parameter).foldl (fun p e => p.insert e.1 e.2) {} := by
  rw [parse, ofPieces, pairs, foldl_map]

theorem consistent_parse (parameter : String) : (parse parameter).Consistent := by
  have hfold {p : Parameters} (hp : p.Consistent) (es : List (String × String)) :
      (es.foldl (fun p e => p.insert e.1 e.2) p).Consistent := by
    induction es generalizing p with
    | nil => exact hp
    | cons e es ih => exact ih (hp.insert e.1 e.2)
  rw [parse_eq_foldl]
  have hempty : (default : Dict String).Sorted := Pairwise.nil
  exact hfold ⟨hempty, rfl, rfl, rfl, hempty, fun _ => rfl⟩ _

theorem raw_parse (parameter : String) : (parse parameter).raw = Dict.ofList (pairs parameter) := by
  have hfold (p : Parameters) (es : List (String × String)) :
      (es.foldl (fun p e => p.insert e.1 e.2) p).raw =
        es.foldl (fun d e => d.insert e.1 e.2) p.raw := by
    induction es generalizing p with
    | nil => rfl
    | cons e es ih => rw [foldl_cons, foldl_cons, ih, raw_insert]
  rw [parse_eq_foldl]
  exact hfold {} _

theorem get?_raw_parse (parameter key : String) :
    (parse parameter).raw.get? key = (pairs parameter).reverse.lookup key := by
  rw [raw_parse, Dict.get?_ofList]

theorem keyValue_spec (piece : List Char) : ∃ key value, keyValue piece = (key, value) ∧
    '=' ∉ key.toList ∧
      (piece = key.toList ++ '=' :: value.toList ∨ piece = key.toList ∧ value = "") := by
  have hcut : ∀ piece : List Char, (cutFirst? '=' piece = none → '=' ∉ piece) ∧
      ∀ r, cutFirst? '=' piece = some r → '=' ∉ r.1 ∧ piece = r.1 ++ '=' :: r.2 := by
    intro piece
    induction piece with
    | nil => simp [cutFirst?]
    | cons c piece ih =>
      rw [cutFirst?]
      by_cases hc : c = '='
      · simp [hc]
      · rw [if_neg hc]
        cases hrest : cutFirst? '=' piece with
        | none => simpa [Ne.symm hc] using ih.1 hrest
        | some r => simpa [Ne.symm hc] using ih.2 r hrest
  rw [keyValue]
  cases hrest : cutFirst? '=' piece with
  | none => exact ⟨_, _, rfl, by simpa using (hcut piece).1 hrest, .inr ⟨by simp, rfl⟩⟩
  | some r =>
    obtain ⟨hkey, hpiece⟩ := (hcut piece).2 r hrest
    exact ⟨_, _, rfl, by simpa using hkey, .inl (by simpa using hpiece)⟩

theorem pluginList_eq_nil_iff {value : String} : pluginList value = [] ↔ value = "" := by
  rw [pluginList]
  split
  · simp [*]
  · simp [splitOn_ne_nil, *]

theorem Consistent.readOff (h : p.Consistent) {pairs : List (String × String)}
    (hraw : ∀ key, p.raw.get? key = pairs.reverse.lookup key) : p.ReadOff pairs := by
  refine ⟨hraw, h.importPrefix, h.importPath, ?_, ?_, ?_, ?_⟩
  · intro file value
    rw [h.sorted_importMap.mem_iff, h.raw.mem_iff, h.importMap]
  · rw [h.plugins, Option.map_eq_none_iff]
  · rw [h.plugins, Option.map_eq_some_iff]
    constructor
    · rintro ⟨value, hvalue, hlist⟩
      rw [hvalue, pluginList_eq_nil_iff.mp hlist]
    · intro hvalue
      exact ⟨"", hvalue, rfl⟩
  · intro value hvalue hne
    rw [h.plugins, hvalue, Option.map_some, pluginList, if_neg hne]

theorem pairs_append (a b : String) : pairs (a ++ "," ++ b) = pairs a ++ pairs b := by
  have htext : (a ++ "," ++ b).toList = a.toList ++ ',' :: b.toList := by simp
  rw [pairs, htext, splitOn_append, filter_append, map_append, pairs, pairs]

/-- The parameters are what their pairs say. -/
theorem parse_pairs :
    (∀ piece, ∃ key value, keyValue piece = (key, value) ∧ '=' ∉ key.toList ∧
      (piece = key.toList ++ '=' :: value.toList ∨ piece = key.toList ∧ value = "")) ∧
    (∀ parameter, (parse parameter).ReadOff (pairs parameter)) ∧
    (∀ a b, (parse a).raw = (parse b).raw → parse a = parse b) ∧
    (∀ a b key, (parse (a ++ "," ++ b)).raw.get? key =
      ((parse b).raw.get? key).or ((parse a).raw.get? key)) ∧
    ∀ a b, (pairs a).Perm (pairs b) → ((pairs a).map Prod.fst).Nodup → parse a = parse b := by
  have hdetermined (a b : String) (h : (parse a).raw = (parse b).raw) : parse a = parse b :=
    (consistent_parse a).ext (consistent_parse b) h
  refine ⟨keyValue_spec, fun parameter => ?_, hdetermined, fun a b key => ?_, ?_⟩
  · exact (consistent_parse parameter).readOff (get?_raw_parse parameter)
  · rw [get?_raw_parse, get?_raw_parse, get?_raw_parse, pairs_append, reverse_append, lookup_append]
  · intro a b hperm hnodup
    apply hdetermined
    apply (consistent_parse a).raw.ext (consistent_parse b).raw
    intro key
    have hreverse := (reverse_perm (pairs a)).trans (hperm.trans (reverse_perm (pairs b)).symm)
    rw [get?_raw_parse, get?_raw_parse]
    exact Dict.lookup_perm hreverse (((reverse_perm _).map _).nodup_iff.mpr hnodup) key

end GoBindings.Parameters
