import GoBindings.Bind.Embedded
import GoBindings.Proofs.WireValues

/-!
# Rows of bytes are read back

A compressed descriptor is cut into rows, and the rows stand on the last lines of a source. Whatever
stands on the lines before them, the rows are found there, and hold the descriptor.
-/

namespace GoBindings

open List Wire Text

variable {bs : List UInt8}

namespace Gzip

theorem readBlocks?_block (h : bs.length ≤ blockSize) (isLast : Bool) (rest : List UInt8) :
    readBlocks? (block isLast bs ++ rest) =
      if isLast then some (bs, rest)
      else (readBlocks? rest).map fun (content, rest) => (bs ++ content, rest) := by
  have hlt : blockSize < 256 ^ 2 := by decide
  have hlength : Fixed.decodeNat (Fixed.encodeNat 2 bs.length) = bs.length := by
    rw [Fixed.decodeNat_encodeNat, Nat.mod_eq_of_lt (by omega)]
  have hinverted : Fixed.decodeNat (Fixed.encodeNat 2 (blockSize - bs.length)) =
      blockSize - bs.length := by
    rw [Fixed.decodeNat_encodeNat, Nat.mod_eq_of_lt (by omega)]
  -- The two lengths take two bytes each.
  have hbytes : ∀ n m, (Fixed.encodeNat 2 n ++ Fixed.encodeNat 2 m ++ bs ++ rest).take 2 =
        Fixed.encodeNat 2 n ∧
      ((Fixed.encodeNat 2 n ++ Fixed.encodeNat 2 m ++ bs ++ rest).drop 2).take 2 =
        Fixed.encodeNat 2 m ∧
      (Fixed.encodeNat 2 n ++ Fixed.encodeNat 2 m ++ bs ++ rest).drop 4 =
        bs ++ rest := fun n m => ⟨rfl, rfl, rfl⟩
  obtain ⟨hfirst, hsecond, hafter⟩ := hbytes bs.length (blockSize - bs.length)
  have hfits : ¬((Fixed.encodeNat 2 bs.length ++
        Fixed.encodeNat 2 (blockSize - bs.length) ++ bs ++ rest).length < 4 + bs.length ∨
      bs.length + (blockSize - bs.length) ≠ blockSize) := by
    simp only [length_append, Fixed.length_encodeNat]
    omega
  rw [block, cons_append, readBlocks?]
  simp only [hfirst, hsecond, hafter, hlength, hinverted, if_neg hfits]
  cases isLast <;> simp

theorem readBlocks?_blocks (bs rest : List UInt8) :
    readBlocks? (blocks bs ++ rest) = some (bs, rest) := by
  fun_induction blocks bs with
  | case1 bs h => rw [readBlocks?_block h]; rfl
  | case2 bs h ih =>
    have htake : (bs.take blockSize).length ≤ blockSize := length_take_le _ _
    rw [List.append_assoc, readBlocks?_block htake, ih]
    simp

theorem decompress?_compress (bs : List UInt8) : decompress? (compress bs) = some bs := by
  rw [decompress?, compress]
  simp [readBlocks?_blocks]

end Gzip

namespace Text

variable {sep : Char}

theorem flatMap_splitOn (cs : List Char) : (splitOn sep cs).flatMap (· ++ [sep]) = cs ++ [sep] := by
  induction cs with
  | nil => simp [splitOn]
  | cons c cs ih =>
    rw [splitOn]
    split
    · rename_i hc
      rw [flatMap_cons, ih, hc]
      rfl
    · obtain ⟨piece, pieces, h⟩ := exists_cons_of_ne_nil (splitOn_ne_nil sep cs)
      rw [h, flatMap_cons] at ih
      rw [h, flatMap_cons, cons_append, cons_append, ih]
      rfl

theorem exists_splitOn {lines : List (List Char)} (hne : lines ≠ []) (h : ∀ l ∈ lines, sep ∉ l) :
    ∃ cs, lines.flatMap (· ++ [sep]) = cs ++ [sep] ∧ splitOn sep cs = lines := by
  induction lines with
  | nil => exact absurd rfl hne
  | cons l lines ih =>
    rw [forall_mem_cons] at h
    by_cases hnil : lines = []
    · subst hnil
      exact ⟨l, by simp, splitOn_of_not_mem h.1⟩
    · obtain ⟨cs, heq, hsplit⟩ := ih hnil h.2
      refine ⟨l ++ sep :: cs, ?_, ?_⟩
      · rw [flatMap_cons, heq]
        simp
      · rw [splitOn_append, splitOn_of_not_mem h.1, hsplit]
        rfl

theorem dropStart?_append (start cs : List Char) : dropStart? start (start ++ cs) = some cs := by
  induction start with
  | nil => rfl
  | cons d ds ih => rw [cons_append, dropStart?, if_pos rfl, ih]

theorem dropEnd?_append (cs ending : List Char) : dropEnd? ending (cs ++ ending) = some cs := by
  rw [dropEnd?, reverse_append, dropStart?_append, Option.map_some, reverse_reverse]

end Text

namespace Embedded

section Chunks

variable (bs : List UInt8)

theorem flatten_chunks : (chunks bs).flatten = bs := by
  fun_induction chunks bs with
  | case1 => rfl
  | case2 b bs ih => rw [flatten_cons, ih, take_append_drop]

theorem chunks_ne_nil : ∀ row ∈ chunks bs, row ≠ [] := by
  fun_induction chunks bs with
  | case1 => simp
  | case2 b bs ih =>
    rw [forall_mem_cons]
    exact ⟨by simp [rowSize], ih⟩

theorem length_chunks : ∀ row ∈ (chunks bs).dropLast, row.length = rowSize := by
  fun_induction chunks bs with
  | case1 => simp
  | case2 b bs ih =>
    by_cases hrest : (b :: bs).drop rowSize = []
    · rw [hrest, chunks]
      simp
    · have hnext : chunks ((b :: bs).drop rowSize) ≠ [] := by
        obtain ⟨c, cs, h⟩ := exists_cons_of_ne_nil hrest
        rw [h, chunks]
        exact cons_ne_nil _ _
      rw [dropLast_cons_of_ne_nil hnext, forall_mem_cons]
      refine ⟨?_, ih⟩
      have hlength := length_pos_iff.mpr hrest
      rw [length_drop] at hlength
      rw [length_take]
      omega

end Chunks

def rowText (bs : List UInt8) : List Char := bs.flatMap fun b => (byteText b).toList ++ [',']

def remarkText (count : String) : List Char := "// ".toList ++ count.toList ++ remark.toList

/-- The lines of a source from the comment above the rows on. -/
def lines (bs : List UInt8) : List (List Char) :=
  ('\t' :: remarkText (toString bs.length)) ::
    ((chunks bs).map fun row => '\t' :: rowText row) ++ [['\x7d']]

private theorem rowText_cons (b : UInt8) (bs : List UInt8) :
    rowText (b :: bs) = '0' :: 'x' :: Nat.digitChar (b.toNat / 16) ::
      Nat.digitChar (b.toNat % 16) :: ',' :: rowText bs := by
  rw [rowText, flatMap_cons, byteText, String.toList_ofList]
  rfl

theorem rowBytes?_rowText (bs : List UInt8) : rowBytes? (rowText bs) = some bs := by
  have hdigit : ∀ n < 16, hexValue? (Nat.digitChar n) = some n := by decide
  induction bs with
  | nil => rfl
  | cons b bs ih =>
    have hlt := b.toNat_lt
    have hbyte : (16 * (b.toNat / 16) + b.toNat % 16).toUInt8 = b := by
      rw [Nat.div_add_mod]
      exact UInt8.ofNat_toNat
    rw [rowText_cons, rowBytes?, hdigit _ (by omega), hdigit _ (Nat.mod_lt _ (by decide)), ih]
    exact congrArg (fun byte => some (byte :: bs)) hbyte

theorem readRow?_rowText (h : bs ≠ []) : readRow? ('\t' :: rowText bs) = some bs := by
  obtain ⟨b, bs, rfl⟩ := exists_cons_of_ne_nil h
  rw [← rowBytes?_rowText (b :: bs), rowText_cons]
  rfl

theorem readRows_append {rows : List (List UInt8)} (h : ∀ row ∈ rows, row ≠ [])
    {rest : List (List Char)} (hrest : ∀ line ∈ rest.head?, readRow? line = none) :
    readRows (rows.map (fun row => '\t' :: rowText row) ++ rest) = (rows, rest) := by
  induction rows with
  | nil =>
    cases rest with
    | nil => rfl
    | cons line rest => rw [map_nil, nil_append, readRows, hrest line rfl]
  | cons row rows ih =>
    rw [forall_mem_cons] at h
    rw [map_cons, cons_append, readRows, readRow?_rowText h.1, ih h.2]

theorem readRemark?_remarkText (count : String) :
    readRemark? ('\t' :: remarkText count) = some count := by
  have hstart : '\t' :: remarkText count = "\t// ".toList ++ (count.toList ++ remark.toList) := by
    simp [remarkText]
  rw [readRemark?, hstart, dropStart?_append]
  simp [dropEnd?_append]

theorem splitAtRemark?_append {before after : List (List Char)} {line : List Char} {count : String}
    (hline : readRemark? line = some count) (hafter : ∀ l ∈ after, readRemark? l = none) :
    splitAtRemark? (before ++ line :: after) = some (before, count, after) := by
  have hnone : splitAtRemark? after = none := by
    induction after with
    | nil => rfl
    | cons l after ih =>
      rw [forall_mem_cons] at hafter
      rw [splitAtRemark?, ih hafter.2, hafter.1]
      rfl
  induction before with
  | nil => rw [nil_append, splitAtRemark?, hnone, hline]; rfl
  | cons l before ih => rw [cons_append, splitAtRemark?, ih]

private theorem lines_oneLine (bs : List UInt8) : ∀ l ∈ lines bs, '\n' ∉ l := by
  have hdigit : ∀ n < 16, Nat.digitChar n ≠ '\n' := by decide
  have hrow (row : List UInt8) : '\n' ∉ rowText row := by
    induction row with
    | nil => simp [rowText]
    | cons b row ih =>
      have hhigh := hdigit (b.toNat / 16) (by have := b.toNat_lt; omega)
      have hlow := hdigit (b.toNat % 16) (Nat.mod_lt _ (by decide))
      simp [rowText_cons, ih, hhigh.symm, hlow.symm]
  have hcount : '\n' ∉ Nat.toDigits 10 bs.length := fun h =>
    absurd (Nat.isDigit_of_mem_toDigits (by decide) (by decide) h) (by decide)
  simp only [lines, forall_mem_append, forall_mem_cons, forall_mem_map]
  refine ⟨⟨?_, fun row _ => by simp [hrow row]⟩, by simp⟩
  simp +decide [remarkText, remark, hcount]

/-- The rows on the last lines of a source are read back, whatever stands before them. -/
theorem ofSource?_lines {source : String} {front : List Char}
    (h : source.toList = front ++ '\n' :: (lines bs).flatMap (· ++ ['\n'])) :
    ofSource? source =
      some ⟨String.ofList (front ++ ['\n']), toString bs.length, chunks bs, "\x7d\n"⟩ := by
  obtain ⟨cs, heq, hsplit⟩ := exists_splitOn (by simp [lines]) (lines_oneLine bs)
  have hend : dropEnd? ['\n'] source.toList = some (front ++ '\n' :: cs) := by
    have hsource : source.toList = (front ++ '\n' :: cs) ++ ['\n'] := by
      rw [h, heq]
      simp
    rw [hsource, dropEnd?_append]
  have hafter : ∀ l ∈ ((chunks bs).map fun row => '\t' :: rowText row) ++ [['\x7d']],
      readRemark? l = none := by
    rw [forall_mem_append, forall_mem_map]
    refine ⟨fun row hrow => ?_, by decide⟩
    obtain ⟨b, row, rfl⟩ := exists_cons_of_ne_nil (chunks_ne_nil bs row hrow)
    rw [rowText_cons]
    rfl
  have hremark : splitAtRemark? (Text.splitOn '\n' (front ++ '\n' :: cs)) =
      some (Text.splitOn '\n' front, toString bs.length,
        ((chunks bs).map fun row => '\t' :: rowText row) ++ [['\x7d']]) := by
    rw [splitOn_append, hsplit]
    exact splitAtRemark?_append (readRemark?_remarkText _) hafter
  have hrows : readRows (((chunks bs).map fun row => '\t' :: rowText row) ++ [['\x7d']]) =
      (chunks bs, [['\x7d']]) := readRows_append (chunks_ne_nil bs) (by decide)
  have hfront : unlines (Text.splitOn '\n' front) = String.ofList (front ++ ['\n']) := by
    rw [unlines, flatMap_splitOn]
  rw [ofSource?, hend, Option.bind_eq_bind, Option.bind_some, hremark]
  simp only [Option.bind_eq_bind, Option.bind_some, hrows, hfront]
  rfl

end Embedded

end GoBindings
