import DispatchTree.Proofs.Catalogs
import DispatchTree.Proofs.Decoding
import DispatchTree.Proofs.Execution
/-! Dispatch by generated code.
The code of a catalog is run on the bytes of a candidate.  Its probes see bytes where the tree was
grown from characters and lengths that stop at a largest value; on the names of the catalog the
thresholds do not notice either. -/
namespace DispatchTree
open Text

def nameBytes (name : String) : List UInt8 := name.toByteArray.data.toList

theorem nameBytes_inj {name other : String} : nameBytes name = nameBytes other ↔ name = other := by
  rw [nameBytes, nameBytes, Array.toList_inj, ← ByteArray.ext_iff, String.toByteArray_inj]

theorem utf8EncodeChar_of_ascii {c : Char} (h : c.toNat < 128) :
    String.utf8EncodeChar c = [UInt8.ofNat c.toNat] := by
  have hc : c.toNat ≤ 127 := by omega
  exact if_pos hc

theorem nameBytes_of_isAscii {name : String} (h : isAscii name = true) :
    nameBytes name = name.toList.map fun c => UInt8.ofNat c.toNat := by
  have hbytes : nameBytes name = name.toList.flatMap String.utf8EncodeChar := by
    rw [nameBytes, ← String.utf8Encode_toList, List.utf8Encode]
    simp
  have hchars : ∀ c ∈ name.toList, c.toNat < 128 := by
    simpa [isAscii] using h
  rw [hbytes]
  generalize name.toList = chars at hchars
  induction chars with
  | nil => rfl
  | cons c rest ih =>
    have hrest := ih fun d hd => hchars d (List.mem_cons_of_mem _ hd)
    rw [List.flatMap_cons, utf8EncodeChar_of_ascii (hchars c (List.mem_cons_self ..)), hrest]
    rfl

theorem byteValue_ofNat (signed : Bool) :
    ∀ code < 128, Candidate.byteValue signed (UInt8.ofNat code) = (code : Int) := by
  cases signed <;> decide

theorem byteValue_map_eq {c : Option Char} (signed : Bool) (h : ∀ d ∈ c, d.toNat < 128) :
    ((c.map fun d => UInt8.ofNat d.toNat).map (Candidate.byteValue signed)).getD 0 =
      (Feature.codeOf c : Int) := by
  cases c with
  | none => rfl
  | some d => simpa using byteValue_ofNat signed d.toNat (h d rfl)

/-- Below the largest length, a threshold tells the bytes of an ASCII name as it tells the name. -/
theorem lt_value_ofBytes_iff {name : String} (h : isAscii name = true) (signed : Bool)
    {f : Feature} {threshold : Nat} (ht : threshold < Feature.maxLength) :
    (threshold : Int) < (Candidate.ofBytes signed (nameBytes name)).value f ↔
      threshold < f.value name := by
  have hchars : ∀ c ∈ name.toList, c.toNat < 128 := by
    simpa [isAscii] using h
  cases f with
  | length =>
    have hsize : (nameBytes name).length = name.utf8ByteSize := rfl
    simp only [Candidate.ofBytes, Feature.value, hsize]
    omega
  | firstChar =>
    have hv := byteValue_map_eq (c := name.toList.head?) signed fun d hd =>
      hchars d (List.mem_of_head? hd)
    simp only [Candidate.ofBytes, Feature.value, nameBytes_of_isAscii h, List.head?_map, hv]
    omega
  | lastChar =>
    have hv := byteValue_map_eq (c := name.toList.getLast?) signed fun d hd =>
      hchars d (List.mem_of_getLast? hd)
    simp only [Candidate.ofBytes, Feature.value, nameBytes_of_isAscii h, List.getLast?_map, hv]
    omega

theorem isName_ofBytes_iff {signed : Bool} {bytes : List UInt8} {name : String} :
    (Candidate.ofBytes signed bytes).isName name = true ↔ nameBytes name = bytes := by
  simp [Candidate.ofBytes, nameBytes]

namespace Tree

theorem respects_ofBytes {α : Type} {scale : Evenness α} {names : List String}
    (h : ∀ name ∈ names, isAscii name = true) (signed : Bool) (bytes : List UInt8) :
    (grow scale names).Respects (.ofBytes signed bytes) := by
  intro name hn hc guard hg
  rw [← isName_ofBytes_iff.mp hc]
  exact lt_value_ofBytes_iff (h name (mem_names_grow.mp hn)) signed
    (threshold_lt_of_mem_guards_grow hg)

end Tree

theorem Catalog.eq_of_ofNames {label : String} {names : List String} {catalog : Catalog}
    (h : ofNames label names = .ok catalog) : catalog.names = names :=
  (ofNames_eq_ok_iff.mp h).2

/-- Generated code dispatches every candidate: run on any bytes, read as signed or as unsigned
characters, the whole code of a catalog returns the call of the name that the bytes are, and the
null pointer where they are none of the names.  The scale that chose the splits does not matter. -/
theorem run_code_of_catalog {α : Type} (scale : Evenness α) {label : String} {names : List String}
    {catalog : Catalog} (h : Catalog.ofNames label names = .ok catalog) (form : CallForm)
    (layout : Layout) {margin : String} (hm : AllBlank margin) (signed : Bool)
    (bytes : List UInt8) :
    ∃ fragment, Fragment.ofText?
        ((Tree.ofCatalogWith scale catalog).fullCode form.call layout margin) = some fragment ∧
      (∀ name ∈ names, nameBytes name = bytes →
        fragment.run (.ofBytes signed bytes) = some (form.call name)) ∧
      ((∀ name ∈ names, nameBytes name ≠ bytes) →
        fragment.run (.ofBytes signed bytes) = some "nullptr") := by
  obtain rfl : catalog.names = names := Catalog.eq_of_ofNames h
  have hmem : ∀ {name}, name ∈ (Tree.ofCatalogWith scale catalog).names ↔ name ∈ catalog.names :=
    Tree.mem_names_grow
  have hid : ∀ name ∈ (Tree.ofCatalogWith scale catalog).names, isIdentifier name = true :=
    fun name hn => catalog.identifiers name (hmem.mp hn)
  have hr : (Tree.ofCatalogWith scale catalog).Respects (.ofBytes signed bytes) :=
    Tree.respects_ofBytes (fun name hn => isAscii_of_isIdentifier (catalog.identifiers name hn))
      signed bytes
  have ho : (Tree.ofCatalogWith scale catalog).Ordered := Tree.ordered_grow catalog.names
  refine ⟨_, Tree.ofText?_fullCode hid layout hm, ?_, ?_⟩
  · intro name hn hbytes
    have honly : ∀ other ∈ (Tree.ofCatalogWith scale catalog).names,
        (Candidate.ofBytes signed bytes).isName other = true → other = name :=
      fun other _ hother => nameBytes_inj.mp ((isName_ofBytes_iff.mp hother).trans hbytes.symm)
    rw [Tree.run_fragmentBefore ho hr, Tree.lookup_eq_some ho hr (hmem.mpr hn)
      (isName_ofBytes_iff.mpr hbytes) honly]
    rfl
  · intro hnone
    have hno : ∀ name ∈ (Tree.ofCatalogWith scale catalog).names,
        (Candidate.ofBytes signed bytes).isName name = false := by
      intro name hn
      apply Bool.eq_false_iff.mpr
      intro hname
      exact hnone name (hmem.mp hn) (isName_ofBytes_iff.mp hname)
    rw [Tree.run_fragmentBefore ho hr, Tree.lookup_eq_none hno]
    rfl

/-- One name of a pair, and bytes that are neither of them, with a first character that is negative
where characters are signed. -/
theorem run_code_of_catalog_pair :
    ∃ catalog fragment, Catalog.ofNames "pair" ["json", "a"] = .ok catalog ∧ AllBlank "\t" ∧
      Fragment.ofText? ((Tree.ofCatalog catalog).fullCode CallForm.factory.call (.pretty 2) "\t") =
        some fragment ∧
      fragment.run (.ofBytes true [106, 115, 111, 110]) = some "json_factory()" ∧
      fragment.run (.ofBytes true [200, 115, 111, 110]) = some "nullptr" := by
  obtain ⟨catalog, hc⟩ : ∃ catalog, Catalog.ofNames "pair" ["json", "a"] = .ok catalog :=
    ⟨_, rfl⟩
  have hm : AllBlank "\t" := by decide
  obtain ⟨fragment, hread, hname, _⟩ :=
    run_code_of_catalog .entropy hc .factory (.pretty 2) hm true [106, 115, 111, 110]
  obtain ⟨other, hother, _, hnone⟩ :=
    run_code_of_catalog .entropy hc .factory (.pretty 2) hm true [200, 115, 111, 110]
  obtain rfl : fragment = other := Option.some.inj (hread.symm.trans hother)
  exact ⟨catalog, fragment, hc, hm, hread, hname "json" (by decide) (by decide),
    hnone (by decide)⟩

end DispatchTree
