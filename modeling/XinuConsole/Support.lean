import XinuConsole.Cserver

/-!
`src/support.c`: the lookup of a row by name and class.
-/

namespace XinuConsole

open Lib

/-- The test in the loop of `getcondata`. An empty class matches every row, as
a null pointer would. -/
def conMatches (pname pclass : List Byte) (row : Condata) : Bool :=
  strnequ row.conname pname maxConnectionName &&
    (pclass.headD 0 = 0 || strnequ row.conclass pclass maxClassName)

/-- `getcondata`: the position of the first row that matches. -/
def getcondata (plist : List Condata) (pname pclass : List Byte) : Option ℕ :=
  plist.findIdx? (conMatches pname pclass)

theorem getcondata_some {plist : List Condata} {pname pclass : List Byte} {i : ℕ}
    (h : getcondata plist pname pclass = some i) :
    ∃ row, plist[i]? = some row ∧ conMatches pname pclass row = true := by
  obtain ⟨hi, hm, -⟩ := List.findIdx?_eq_some_iff_getElem.mp h
  exact ⟨plist[i], List.getElem?_eq_getElem hi, hm⟩

/-- The lookup compares the names as strings, cut to the length of the field. -/
theorem conMatches_iff (pname pclass : List Byte) (row : Condata) :
    conMatches pname pclass row = true ↔
      row.conname = (cstr pname).take 16 ∧
        (pclass.headD 0 = 0 ∨ row.conclass = (cstr pclass).take 16) := by
  have hn : (cstr row.conname).take 16 = row.conname := by
    rw [cstr_of_not_mem row.conname_str.1]
    exact List.take_of_length_le row.conname_str.2.le
  have hc : (cstr row.conclass).take 16 = row.conclass := by
    rw [cstr_of_not_mem row.conclass_str.1]
    exact List.take_of_length_le row.conclass_str.2.le
  simp [conMatches, strnequ_iff, hn, hc]

/-- The lookup only looks at the two names of the rows. -/
theorem getcondata_congr {plist plist' : List Condata} (pname pclass : List Byte)
    (h : plist.map (fun row => (row.conname, row.conclass)) =
      plist'.map fun row => (row.conname, row.conclass)) :
    getcondata plist pname pclass = getcondata plist' pname pclass := by
  have key (l : List Condata) : getcondata l pname pclass =
      (l.map fun row => (row.conname, row.conclass)).findIdx? fun names =>
        strnequ names.1 pname maxConnectionName &&
          (pclass.headD 0 = 0 || strnequ names.2 pclass maxClassName) := by
    rw [List.findIdx?_map]
    rfl
  rw [key, key, h]

/-- A row of the class `mips` as `makeEntry` may leave it. -/
def entry (name : String) (h : (0 : Byte) ∉ text name ∧ (text name).length < 16 := by decide) :
    Condata :=
  { conname := text name
    conclass := defaultClassName
    conprog := text "/bin/tty-connect"
    progargs := [text "/dev/ttyS0"]
    argsline := text "/dev/ttyS0"
    user := CharArray.zero _
    conpid := badPid
    contime := 0
    conname_str := h
    conclass_str := by decide
    progargs_le := by decide
    user_end := by decide }

def argo : Condata := entry "argo"

def brig : Condata := entry "brig"

end XinuConsole
