import DarwinCore.Model.Database.SQLite3DB
import Mathlib.Data.List.Forall2
import Mathlib.Order.Defs.LinearOrder
import Mathlib.Algebra.Order.Ring.Int

/-! # Query results and the rows -/

namespace DarwinCore.Sqlite

variable {row columns : List Column} {rows : List (List Column)} {r record : Record} {i : ℤ}

/-! ## The maps -/

theorem emplace_self {α β : Type*} [DecidableEq α] (key : α) (value : β) (map : α → Option β) :
    emplace key value map key = (map key).or (some value) :=
  if_pos rfl

theorem emplace_of_ne {α β : Type*} [DecidableEq α] {key k : α} (h : k ≠ key) (value : β)
    (map : α → Option β) : emplace key value map k = map k :=
  if_neg h

namespace Record

theorem fill_isSome_iff : (fill columns i r).isSome ↔ ∀ column ∈ columns, column.value ≠ none := by
  induction columns generalizing i r with
  | nil => simp [fill]
  | cons column columns ih =>
    rw [fill, List.forall_mem_cons]
    cases hvalue : column.value with
    | none => simp
    | some value =>
      rw [ih]
      simp

theorem fill_cons {column : Column} (h : fill (column :: columns) i r = some record) :
    ∃ value, column.value = some value ∧
      fill columns (i + 1)
        { r with
          indexNameMap := emplace i column.name r.indexNameMap
          nameValueMap := emplace column.name value r.nameValueMap } = some record := by
  rw [fill] at h
  cases hvalue : column.value with
  | none =>
    rw [hvalue] at h
    cases h
  | some value =>
    rw [hvalue] at h
    exact ⟨value, rfl, h⟩

private theorem fill_size (h : fill columns i r = some record) : record.size = r.size := by
  induction columns generalizing i r with
  | nil =>
    obtain rfl : r = record := Option.some.inj h
    rfl
  | cons column columns ih =>
    obtain ⟨value, -, hrest⟩ := fill_cons h
    exact (ih hrest :)

/-- The index of each column leads to its name. -/
private theorem fill_indexNameMap (h : fill columns i r = some record)
    (hfree : ∀ j, i ≤ j → r.indexNameMap j = none) (j : ℤ) :
    record.indexNameMap j =
      if j < i then r.indexNameMap j else columns[(j - i).toNat]?.map Column.name := by
  induction columns generalizing i r with
  | nil =>
    obtain rfl : r = record := Option.some.inj h
    split
    · rfl
    · exact hfree j (by omega)
  | cons column columns ih =>
    obtain ⟨value, -, hrest⟩ := fill_cons h
    have hnext : ∀ j, i + 1 ≤ j → emplace i column.name r.indexNameMap j = none := by
      intro j hj
      rw [emplace_of_ne (by omega)]
      exact hfree j (by omega)
    rw [ih hrest hnext]
    rcases lt_trichotomy j i with hlt | rfl | hgt
    · rw [if_pos (by omega), if_pos hlt]
      exact emplace_of_ne (by omega) ..
    · rw [if_pos (by omega), if_neg (by omega), sub_self]
      exact (emplace_self ..).trans (by rw [hfree j (by omega)]; rfl)
    · obtain ⟨k, hk⟩ : ∃ k, (j - i).toNat = k + 1 := ⟨(j - i).toNat - 1, by omega⟩
      have hk' : (j - (i + 1)).toNat = k := by omega
      rw [if_neg (by omega), if_neg (by omega), hk, hk', List.getElem?_cons_succ]

private theorem fill_nameValueMap (h : fill columns i r = some record) (name : Text) :
    record.nameValueMap name =
      (r.nameValueMap name).or ((columns.find? (·.name = name)).bind Column.value) := by
  induction columns generalizing i r with
  | nil =>
    obtain rfl : r = record := Option.some.inj h
    exact Option.or_none.symm
  | cons column columns ih =>
    obtain ⟨value, hvalue, hrest⟩ := fill_cons h
    refine (ih hrest).trans ?_
    dsimp only
    by_cases hname : name = column.name
    · subst hname
      rw [emplace_self, List.find?_cons_of_pos (by simp), Option.bind_some, hvalue,
        Option.or_assoc, Option.some_or]
    · rw [emplace_of_ne hname, List.find?_cons_of_neg (by simpa using Ne.symm hname)]

/-! ## Records and rows -/

/-- Every column reads as its text, and as nothing where it is NULL. -/
def Mirrors (record : Record) (row : List Column) : Prop :=
  ∀ (i : ℕ) (column : Column), row[i]? = some column → ∀ v : Text,
    record.value i v = column.value.getD v

structure Plain (row : List Column) : Prop where
  not_null : ∀ column ∈ row, column.value ≠ none
  named : ∀ column ∈ row, column.name ≠ []
  same : ∀ c ∈ row, ∀ d ∈ row, c.name = d.name → c.value = d.value

private theorem value_of_fill (h : fill row 0 { size := row.length } = some record) {k : ℕ}
    {column : Column} (hk : row[k]? = some column) (v : Text) :
    record.value k v =
      if column.name = [] then v
      else ((row.find? (·.name = column.name)).bind Column.value).getD v := by
  obtain ⟨hlt, -⟩ := List.getElem?_eq_some_iff.mp hk
  have hsize : record.size = row.length := fill_size h
  have hname : record.name k [] = column.name := by
    rw [name, if_neg (by omega), fill_indexNameMap h (fun _ _ => rfl), if_neg (by omega)]
    simp [hk]
  rw [value, hname, valueOf, fill_nameValueMap h]
  by_cases hempty : column.name = [] <;> simp [hempty]

/-- The record of a row without NULL mirrors it exactly if every name is there and leads to one
value. -/
theorem mirrors_iff (h : fill row 0 { size := row.length } = some record) :
    record.Mirrors row ↔ Plain row := by
  have hvalues : ∀ column ∈ row, column.value ≠ none :=
    fill_isSome_iff.mp (Option.isSome_iff_exists.mpr ⟨record, h⟩)
  have hfind : ∀ c ∈ row, ∃ d, row.find? (·.name = c.name) = some d ∧ d ∈ row ∧
      d.name = c.name := by
    intro c hc
    have hsome : (row.find? (·.name = c.name)).isSome := List.find?_isSome.mpr ⟨c, hc, by simp⟩
    obtain ⟨d, hd⟩ := Option.isSome_iff_exists.mp hsome
    exact ⟨d, hd, List.mem_of_find?_eq_some hd, by simpa using List.find?_some hd⟩
  constructor
  · intro hmirrors
    have hread : ∀ c ∈ row, ∀ v, (if c.name = [] then v
        else ((row.find? (·.name = c.name)).bind Column.value).getD v) = c.value.getD v := by
      intro c hc v
      obtain ⟨k, hk⟩ := List.mem_iff_getElem?.mp hc
      rw [← value_of_fill h hk v]
      exact hmirrors k c hk v
    have hnamed : ∀ c ∈ row, c.name ≠ [] := by
      intro c hc hempty
      obtain ⟨text, htext⟩ := Option.ne_none_iff_exists'.mp (hvalues c hc)
      have hleft := hread c hc ('x' :: text)
      rw [if_pos hempty, htext, Option.getD_some] at hleft
      exact List.cons_ne_self _ _ hleft
    have hfirst : ∀ c ∈ row, ∀ d, row.find? (·.name = c.name) = some d → d ∈ row →
        d.value = c.value := by
      intro c hc d hd hmem
      obtain ⟨text, htext⟩ := Option.ne_none_iff_exists'.mp (hvalues c hc)
      obtain ⟨text', htext'⟩ := Option.ne_none_iff_exists'.mp (hvalues d hmem)
      have heq := hread c hc []
      rw [if_neg (hnamed c hc), hd, Option.bind_some, htext, htext'] at heq
      rw [htext, htext']
      exact congrArg some heq
    refine ⟨hvalues, hnamed, fun c hc d hd hname => ?_⟩
    obtain ⟨e, he, hmem, -⟩ := hfind c hc
    exact (hfirst c hc e he hmem).symm.trans (hfirst d hd e (hname ▸ he) hmem)
  · intro hplain k column hk v
    have hmem := List.mem_of_getElem? hk
    obtain ⟨d, hd, hdmem, hname⟩ := hfind column hmem
    rw [value_of_fill h hk, if_neg (hplain.named column hmem), hd, Option.bind_some,
      hplain.same d hdmem column hmem hname]

end Record

/-! ## The query -/

def Records (records : List Record) (rows : List (List Column)) : Prop :=
  List.Forall₂ (fun record row => Record.fill row 0 { size := row.length } = some record)
    records rows

private theorem sqlite3Exec_eq_some_iff {ret ret' : ℤ} {result result' : List Record} :
    sqlite3Exec rows ret result = some (ret', result') ↔
      ret = ret' ∧ ∃ records, result' = result ++ records ∧ Records records rows := by
  induction rows generalizing result with
  | nil => simp [sqlite3Exec, Records, eq_comm]
  | cons row rows ih =>
    have hcons : sqlite3Exec (row :: rows) ret result =
        (Record.fill row 0 { size := row.length }).bind
          fun record => sqlite3Exec rows ret (result ++ [record]) := by
      rw [sqlite3Exec, List.foldlM_cons, exeCallback]
      cases Record.fill row 0 { size := row.length } <;> rfl
    rw [hcons, Option.bind_eq_some_iff]
    constructor
    · rintro ⟨record, hfill, hrest⟩
      obtain ⟨hret, records, rfl, hrecords⟩ := ih.mp hrest
      exact ⟨hret, record :: records, by simp, .cons hfill hrecords⟩
    · rintro ⟨hret, records, rfl, hrecords⟩
      cases hrecords with
      | @cons record _ records _ hfill hrecords =>
        exact ⟨record, hfill, ih.mpr ⟨hret, records, by simp, hrecords⟩⟩

private theorem exists_records (h : ∀ row ∈ rows, Record.Plain row) :
    ∃ records, Records records rows := by
  induction rows with
  | nil => exact ⟨[], .nil⟩
  | cons row rows ih =>
    obtain ⟨hplain, hrest⟩ := List.forall_mem_cons.mp h
    obtain ⟨record, hfill⟩ := Option.isSome_iff_exists.mp
      (Record.fill_isSome_iff (i := 0) (r := { size := row.length }) |>.mpr hplain.not_null)
    obtain ⟨records, hrecords⟩ := ih hrest
    exact ⟨record :: records, .cons hfill hrecords⟩

theorem Records.mirror_iff {records : List Record} (h : Records records rows) :
    List.Forall₂ Record.Mirrors records rows ↔ ∀ row ∈ rows, Record.Plain row := by
  induction h with
  | nil => simp
  | cons hfill _ ih => rw [List.forall₂_cons, List.forall_mem_cons, Record.mirrors_iff hfill, ih]

/-- The query reads no null pointer, and appends for each row a record that mirrors it. -/
def MirrorsRows (engine : Text → List (List Column) × ℤ) (sql : Text) : Prop :=
  ∀ result, ∃ records,
    query true engine sql result = some (decide ((engine sql).2 = sqliteOk), result ++ records) ∧
      List.Forall₂ Record.Mirrors records (engine sql).1

/-- A query shows the rows as they are exactly if they are plain. -/
theorem mirrorsRows_iff (engine : Text → List (List Column) × ℤ) {sql : Text} (hsql : sql ≠ []) :
    MirrorsRows engine sql ↔ ∀ row ∈ (engine sql).1, Record.Plain row := by
  have hquery (result : List Record) : query true engine sql result =
      (sqlite3Exec (engine sql).1 (engine sql).2 result).map fun r =>
        (decide (r.1 = sqliteOk), r.2) := by
    rw [query, if_neg (by decide), if_neg (by simpa using hsql)]
  constructor
  · intro hmirrors
    obtain ⟨records, hrun, hshown⟩ := hmirrors []
    rw [hquery, Option.map_eq_some_iff] at hrun
    obtain ⟨⟨ret, result⟩, hexec, hresult⟩ := hrun
    obtain ⟨-, records', hsame, hrecords⟩ := sqlite3Exec_eq_some_iff.mp hexec
    obtain rfl : records' = records := hsame.symm.trans (Prod.mk.inj hresult).2
    exact hrecords.mirror_iff.mp hshown
  · intro hplain result
    obtain ⟨records, hrecords⟩ := exists_records hplain
    refine ⟨records, ?_, hrecords.mirror_iff.mpr hplain⟩
    rw [hquery, sqlite3Exec_eq_some_iff.mpr ⟨rfl, records, rfl, hrecords⟩]
    rfl

def oneRow (row : List Column) : Text → List (List Column) × ℤ :=
  fun _ => ([row], sqliteOk)

theorem mirrorsRows_iff_plain :
    MirrorsRows (oneRow [⟨['a'], some ['1']⟩, ⟨['b'], some []⟩]) ['q'] :=
  (mirrorsRows_iff _ (List.cons_ne_nil _ _)).mpr fun row hrow => by
    obtain rfl := List.mem_singleton.mp hrow
    exact ⟨by decide, by decide, by decide⟩

/-- NULL is read through, and the second of two columns `a` reads as the first. -/
theorem rows_not_mirrored :
    query true (oneRow [⟨['a'], none⟩]) ['q'] [] = none ∧
      ¬MirrorsRows (oneRow [⟨['a'], none⟩]) ['q'] ∧
      ¬MirrorsRows (oneRow [⟨['a'], some ['1']⟩, ⟨['a'], some ['2']⟩]) ['q'] := by
  refine ⟨rfl, fun hmirrors => ?_, fun hmirrors => ?_⟩
  · obtain ⟨records, hrun, -⟩ := hmirrors []
    cases hrun
  · obtain ⟨records, hrun, hshown⟩ := hmirrors []
    cases hshown with
    | @cons record _ _ _ hrow hrest =>
        cases hrest
        have hsecond : record.value 1 [] = ['2'] := hrow 1 ⟨['a'], some ['2']⟩ rfl []
        have hread := congrArg (Option.map fun p => p.2.map fun r => r.value 1 []) hrun
        have hfirst : some [['1']] = some [record.value 1 []] := hread
        rw [hsecond] at hfirst
        exact absurd hfirst (by decide)

end DarwinCore.Sqlite
