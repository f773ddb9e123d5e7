import CilCompiler.Proofs.Compilation.Legible

/-! References in listings of compiled programs. Where a program names its types and methods by identifiers, the text
    of a type or a member shows names (`Module.typeSpec_inj`, `Module.memberRef_inj`, `Module.fieldRef_inj`), and the
    names in a compiled module tell types and members apart (`Module.Legible`). So references to members show which
    member they mean (`member_references_shown`). Operands show which type they mean, but for a class called `int32`
    (`type_operands_shown`): of the words for types, it is the only one that is an identifier and that a program may
    give to a type. -/

namespace CilCompiler

/-! ### Texts -/

namespace Module.Legible
variable {m : Module} {p : Program} {host : Text} {t u : Ty} {d e : TypeDef}

/-- A type that there is, by the definition at its bottom. -/
theorem definition (h : m.Legible p host) (ht : m.HasType t) :
    ∃ d ∈ m.types.toList, d.type = t.core ∧ d.type.name = t.declared.name ∧ m.Places host d.type := by
  obtain ⟨d, hd, hcore⟩ := List.mem_map.mp ht
  refine ⟨d, hd, hcore, ?_, h.founded.places _ (List.mem_map_of_mem hd)⟩
  rw [(Ty.core_of_plain (h.defs d hd).plain).2.2, hcore, Ty.declared_core]

/-- Definitions of one name are the same. -/
theorem eq_of_name (h : m.Legible p host) (hd : d ∈ m.types.toList) (he : e ∈ m.types.toList)
    (hn : d.type.name = e.type.name) : d = e := by
  have hnames := h.founded.names
  rw [declaredTypes, List.map_map] at hnames
  exact List.inj_on_of_nodup_map hnames hd he hn

/-- Types of one name and depth are the same. -/
theorem eq_of_declared (h : m.Legible p host) (ht : m.HasType t) (hu : m.HasType u) (hn : t.declared.name = u.declared.name)
    (hr : t.rank = u.rank) : t = u := by
  obtain ⟨d, hd, hdt, hdn, -⟩ := h.definition ht
  obtain ⟨e, he, heu, hen, -⟩ := h.definition hu
  refine Ty.ext_core ?_ hr
  rw [← hdt, ← heu, h.eq_of_name hd he (hdn.trans (hn.trans hen.symm))]

/-- Where a program names its types by identifiers, they are shown as types of a listing. -/
theorem spells (h : m.Legible p host) (hp : ∀ src ∈ p.sources, src.name.isIdentifier = true) (ht : m.HasType t) :
    m.Spells host t.declared := by
  have catalog : ∀ e ∈ Host.catalog, e.name.isIdentifier = true ∧
      (e.isValue = true → (keyword? e.name).isSome = true) := by decide
  obtain ⟨d, hd, hcore, hname, hplace⟩ := h.definition ht
  have hplain := (h.defs d hd).plain
  have hvalue : d.type.isValue = t.declared.isValue := by
    rw [← Ty.declared_core, ← hcore]
    cases hty : d.type with
    | array e =>
      rw [hty] at hplain
      cases hplain
    | root _ | derived _ _ => rfl
  have hassembly : d.type.assembly = t.declared.assembly := by rw [Ty.assembly, hcore, Ty.declared_core]
  refine ⟨?_, ?_, fun hv => ?_⟩
  · rw [← hname]
    rcases List.mem_append.mp (h.defs d hd).name with hn | hn
    · obtain ⟨e, he, heq⟩ := List.mem_map.mp hn
      exact heq ▸ (catalog e he).1
    · obtain ⟨src, hsrc, heq⟩ := List.mem_map.mp hn
      exact heq ▸ hp src hsrc
  · rw [← hassembly]
    exact hplace.elim (fun hhost => .inr hhost.1) (fun hown => .inl hown.1)
  · rw [← hvalue] at hv
    rcases hplace with ⟨-, e, he, hn, hval⟩ | ⟨-, hval⟩
    · rw [← hname, hn]
      exact (catalog e he).2 (hval ▸ hv)
    · rw [hval] at hv
      cases hv

/-- Where a program names its types and methods by identifiers, members are shown as members of a listing. -/
theorem spellsMember (h : m.Legible p host) (hp : ∀ src ∈ p.sources, src.name.isIdentifier = true)
    (hm : ∀ cd ∈ p.classes, ∀ decl ∈ cd.methods, decl.name.isIdentifier = true) (hd : d ∈ m.types.toList) {x : Routine}
    (hx : x ∈ d.routines) : x.method.owner = d.type ∧ m.SpellsMember host x.method := by
  have given : ∀ n ∈ Method.invokeName :: (Host.catalog.flatMap fun e => e.methods.map Host.MethodEntry.name),
      n.isIdentifier = true := by
    decide
  have hdef := h.defs d hd
  have howner : x.method.owner = d.type ∧ (x.method.isCtor = false → x.method.name ∈ p.methodDeclNames) := by
    rcases List.mem_append.mp hx with hc | hr
    · obtain ⟨ho, hctor⟩ := hdef.ctors _ (List.mem_map_of_mem hc)
      exact ⟨ho, fun hf => by rw [hctor] at hf; cases hf⟩
    · obtain ⟨ho, -, hn⟩ := hdef.methods _ (List.mem_map_of_mem hr)
      exact ⟨ho, fun _ => hn⟩
  obtain ⟨ho, hname⟩ := howner
  refine ⟨ho, ?_, ho ▸ hdef.plain, fun q hq => ?_, fun _ => ?_, fun hf => ?_⟩
  · rw [ho]
    exact h.spells hp hdef.admitted.type
  · obtain ⟨t, ht, hty, -⟩ := hdef.admitted.params x hx q hq
    exact ⟨t, ht, h.spells hp hty⟩
  · obtain ⟨t, ht, hty⟩ := hdef.admitted.results x hx
    exact ⟨t, ht, h.spells hp hty⟩
  · rcases List.mem_append.mp (hname hf) with hn | hn
    · exact given _ hn
    · obtain ⟨cd, hcd, hn⟩ := List.mem_flatMap.mp hn
      obtain ⟨decl, hdecl, hn⟩ := List.mem_map.mp hn
      exact hn ▸ hm cd hcd decl hdecl

/-- Where a program names its types by identifiers, fields are shown as fields of a listing. -/
theorem spellsField (h : m.Legible p host) (hp : ∀ src ∈ p.sources, src.name.isIdentifier = true)
    (hd : d ∈ m.types.toList) {f : Field}
    (hf : f ∈ d.fieldRefs) : f.owner = d.type ∧ m.SpellsField host f := by
  have hdef := h.defs d hd
  have ho := hdef.fields f hf
  obtain ⟨t, ht, hty, -⟩ := hdef.admitted.fields f hf
  exact ⟨ho, ho ▸ h.spells hp hdef.admitted.type, ho ▸ hdef.plain, t, ht, h.spells hp hty⟩

/-- The members of a definition among its entries. -/
theorem entry_mem {x : Routine} (h : m.Legible p host) (hd : d ∈ m.types.toList) (hx : x ∈ d.routines) :
    (if x.method.isCtor then Symbols.Entry.ctor x.method else .method x.method) ∈ d.entries := by
  rcases List.mem_append.mp hx with hc | hr
  · have hmem : x.method ∈ d.ctorRefs := List.mem_map_of_mem hc
    rw [((h.defs d hd).ctors _ hmem).2, if_pos rfl]
    exact List.mem_append_right _ (List.mem_map_of_mem hmem)
  · have hmem : x.method ∈ d.methodRefs := List.mem_map_of_mem hr
    rw [((h.defs d hd).methods _ hmem).2.1, if_neg Bool.false_ne_true]
    exact List.mem_append_left _ (List.mem_append_right _ (List.mem_map_of_mem hmem))

end Module.Legible

/-- A declared type is called like the word for a type of the catalog, which is written without its name. -/
def Ty.LooksLike (t u : Ty) : Prop := t.name = "int32" ∧ u.name = TypeName.int32

namespace Module.Legible
variable {m : Module} {p : Program} {host : Text} {t u : Ty}

/-- A type called like the word for another is shown as this word. -/
theorem typeSpec_of_looksLike (h : m.Legible p host) (ht : m.HasType t) (hlike : t.LooksLike u) :
    m.typeSpec t = m.typeSpec u := by
  have other : ∀ e ∈ Host.catalog, e.name ≠ "int32" := by decide
  have plain : t.isArray = false := by
    obtain ⟨hname, -⟩ := hlike
    cases t with
    | array e =>
      have hlast := congrArg (fun n : Text => n.bytes.getLast?) hname
      rw [show (Ty.array e).name.bytes = e.name.bytes ++ TypeName.arrayEnding.bytes from rfl, List.getLast?_append] at hlast
      cases hlast
    | root d | derived d b => rfl
  obtain ⟨d, hd, hcore, -, hplace⟩ := h.definition ht
  rw [(Ty.core_of_plain plain).1] at hcore
  rw [hcore] at hplace
  rcases hplace with ⟨-, e, he, hn, -⟩ | ⟨hassembly, -⟩
  · exact absurd (hn ▸ hlike.1) (other e he)
  · have hqualified : m.qualified t = "int32" := by rw [qualified, if_pos (.inr hassembly), hlike.1]
    have htext : m.typeSpec t = m.qualified t := by
      rw [typeSpec, hlike.1, plain]
      rfl
    rw [htext, hqualified, typeSpec, hlike.2]
    rfl

/-- Where a program names its types by identifiers, an operand shows a type, but for a declared type called like a word. -/
theorem typeSpec_eq_iff (h : m.Legible p host) (hp : ∀ src ∈ p.sources, src.name.isIdentifier = true) (ht : m.HasType t)
    (hu : m.HasType u) :
    m.typeSpec t = m.typeSpec u ↔ t = u ∨ t.LooksLike u ∨ u.LooksLike t := by
  -- The other words are no identifiers, or they are names by which the catalog is known.
  have word : ∀ {t u : Ty}, m.HasType t → m.HasType u → t.isArray = false → u.isArray = false →
      keyword? t.declared.name = some u.declared.name → u.LooksLike t := by
    intro t u ht hu hta hua hk
    have reserved : ∀ x ∈ keywordTable,
        x.2 = "int32" ∧ x.1 = TypeName.int32 ∨ x.2.isIdentifier = false ∨ x.2 ∈ Host.aliases.map Prod.fst := by
      decide
    obtain ⟨d, hd, -, hname, -⟩ := h.definition hu
    rcases reserved _ (keyword?_mem hk) with ⟨h32, hty⟩ | hnot | hmem
    · exact ⟨(Ty.core_of_plain hua).2.2.trans h32, (Ty.core_of_plain hta).2.2.trans hty⟩
    · rw [(h.spells hp hu).name] at hnot
      cases hnot
    · obtain ⟨a, ha, heq⟩ := List.mem_map.mp hmem
      exact absurd (hname.trans heq.symm) ((h.defs d hd).unaliased a ha)
  refine ⟨fun heq => ?_, ?_⟩
  · rcases typeSpec_inj (h.spells hp ht) (h.spells hp hu) heq with ⟨hn, hr⟩ | ⟨hta, hua, hk | hk⟩
    · exact .inl (h.eq_of_declared ht hu hn hr)
    · exact .inr (.inr (word ht hu hta hua hk))
    · exact .inr (.inl (word hu ht hua hta hk))
  · rintro (rfl | hlike | hlike)
    · rfl
    · exact h.typeSpec_of_looksLike ht hlike
    · exact (h.typeSpec_of_looksLike hu hlike).symm

end Module.Legible

namespace Compilation
variable {p : Program} {name runtime : Text} {isCanceled : Bool} {c : Compilation}

/-- In the listing of a program that names its types by identifiers, instructions that are written with a type show
    which type it is: two types of the module look the same only where one is declared as `int32` and the other is
    `System.Int32`. -/
theorem type_operands_shown (h : (compile p .textual name runtime isCanceled).Gives c)
    (hp : ∀ src ∈ p.sources, src.name.isIdentifier = true) :
    (∀ e ∈ c.module.types.toList, e.Mentions c.module.HasType) ∧
    ∀ t u, c.module.HasType t → c.module.HasType u →
      (c.module.typeSpec t = c.module.typeSpec u ↔ t = u ∨ t.LooksLike u ∨ u.LooksLike t) :=
  have hlegible := compile_legible h
  ⟨hlegible.operands, fun _ _ ht hu => hlegible.typeSpec_eq_iff hp ht hu⟩

/-- A class called like the word for a type of the catalog, and arrays of both. -/
def wordProgram : Program where
  delegates := []
  classes := [{ name := "int32", fields := [], ctors := [], methods := [] }, {
    name := "Row"
    fields := []
    ctors := []
    methods := [{
      name := "Main", isStatic := true, ret := "void", params := []
      body := [.local "cells" "" (.newArray "int" (.int 3)), .local "others" "" (.newArray "int32" (.int 3))] }] }]

/-- Arrays of whole numbers and of the class `int32` look different, and so do whole numbers and rows. Whole numbers
    and the class look the same. -/
theorem type_operands_shown_cells : ∃ c, (compile wordProgram .textual "m" "v4" false).Gives c ∧
    (∀ src ∈ wordProgram.sources, src.name.isIdentifier = true) ∧
    ∃ number word row : Ty, number.name = TypeName.int32 ∧ word.name = "int32" ∧ row.name = "Row" ∧
      (∀ t ∈ [number, word, row, .array number, .array word], c.module.HasType t) ∧
      c.module.typeSpec (.array number) ≠ c.module.typeSpec (.array word) ∧
        c.module.typeSpec number ≠ c.module.typeSpec row ∧
      c.module.typeSpec number = c.module.typeSpec word := by
  have named : ∀ src ∈ wordProgram.sources, src.name.isIdentifier = true := by decide
  obtain ⟨c, hc, htypes⟩ := Logged.gives_of_any (x := compile wordProgram .textual "m" "v4" false) (j := default)
    (p := fun c => decide (∃ number ∈ c.module.declaredTypes, ∃ word ∈ c.module.declaredTypes,
      ∃ row ∈ c.module.declaredTypes,
      number.name = TypeName.int32 ∧ word.name = "int32" ∧ row.name = "Row" ∧
      (∀ t ∈ [number, word, row, .array number, .array word], t.core ∈ c.module.declaredTypes) ∧
      (Ty.array number).name ≠ "int32" ∧ (Ty.array word).name ≠ "int32")) (by decide +kernel)
  obtain ⟨number, -, word, -, row, -, hnumber, hword, hrow, hhas, harray, harray'⟩ := of_decide_eq_true htypes
  have has : ∀ t ∈ [number, word, row, .array number, .array word], c.module.HasType t := hhas
  obtain ⟨-, hshown⟩ := type_operands_shown hc named
  refine ⟨c, hc, named, number, word, row, hnumber, hword, hrow, has, fun heq => ?_, fun heq => ?_, ?_⟩
  · rcases (hshown _ _ (has _ (by simp)) (has _ (by simp))).mp heq with hsame | ⟨hlike, -⟩ | ⟨hlike, -⟩
    · cases hsame
      rw [hnumber] at hword
      exact absurd hword (by decide)
    · exact harray hlike
    · exact harray' hlike
  · rcases (hshown _ _ (has _ (by simp)) (has _ (by simp))).mp heq with rfl | ⟨hlike, -⟩ | ⟨hlike, -⟩
    · rw [hnumber] at hrow
      exact absurd hrow (by decide)
    · rw [hnumber] at hlike
      exact absurd hlike (by decide)
    · rw [hrow] at hlike
      exact absurd hlike (by decide)
  · exact (hshown _ _ (has _ (by simp)) (has _ (by simp))).mpr (.inr (.inr ⟨hword, hnumber⟩))

/-- A listing does not tell a class `int32` from the type of whole numbers: arrays of both are made by the same text. -/
theorem type_operands_mistaken : ∃ c, (compile wordProgram .textual "m" "v4" false).Gives c ∧
    (∀ src ∈ wordProgram.sources, src.name.isIdentifier = true) ∧
    ∃ e ∈ c.module.types.toList, ∃ x ∈ e.routines, ∃ i ∈ x.draft.code.toList, ∃ j ∈ x.draft.code.toList,
      i.op = .newarr ∧ j.op = .newarr ∧ i.operand ≠ j.operand ∧
      c.module.operandText? i.operand = some "int32" ∧ c.module.operandText? j.operand = some "int32" := by
  obtain ⟨c, hc, hany⟩ := Logged.gives_of_any (x := compile wordProgram .textual "m" "v4" false) (j := default)
    (p := fun c => decide (∃ e ∈ c.module.types.toList, ∃ x ∈ e.routines, ∃ i ∈ x.draft.code.toList,
      ∃ j ∈ x.draft.code.toList,
      i.op = .newarr ∧ j.op = .newarr ∧ i.operand ≠ j.operand ∧
      c.module.operandText? i.operand = some "int32" ∧ c.module.operandText? j.operand = some "int32")) (by decide +kernel)
  exact ⟨c, hc, by decide, of_decide_eq_true hany⟩

/-- In the listing of a program that names its types and methods by identifiers, references show which member they
    mean: no two methods or constructors look the same, and no two fields. -/
theorem member_references_shown (h : (compile p .textual name runtime isCanceled).Gives c)
    (hp : ∀ src ∈ p.sources, src.name.isIdentifier = true)
    (hm : ∀ cd ∈ p.classes, ∀ decl ∈ cd.methods, decl.name.isIdentifier = true) :
    (∀ d ∈ c.module.types.toList, ∀ e ∈ c.module.types.toList, ∀ x ∈ d.routines, ∀ y ∈ e.routines,
      c.module.memberRef x.method = c.module.memberRef y.method → x.method = y.method) ∧
    ∀ d ∈ c.module.types.toList, ∀ e ∈ c.module.types.toList, ∀ f ∈ d.fields.toList, ∀ g ∈ e.fields.toList,
      c.module.fieldRef f = c.module.fieldRef g → f = g := by
  have hlegible := compile_legible h
  refine ⟨fun d hd e he x hx y hy heq => ?_, fun d hd e he f hf g hg heq => ?_⟩
  · obtain ⟨hox, hsx⟩ := hlegible.spellsMember hp hm hd hx
    obtain ⟨hoy, hsy⟩ := hlegible.spellsMember hp hm he hy
    obtain ⟨howner, hctor, hparams, hnamed⟩ := Module.memberRef_inj hsx hsy heq
    rw [hox, hoy] at howner
    obtain rfl := hlegible.eq_of_name hd he howner
    have hxmem := hlegible.entry_mem hd hx
    have hymem := hlegible.entry_mem hd hy
    rw [← hctor] at hymem
    have same := (hlegible.defs d hd).distinct.eq_of_clashes hxmem hymem
    cases hc : x.method.isCtor with
    | true =>
      simp only [hc, if_true] at same
      exact Symbols.Entry.ctor.inj (same hparams)
    | false =>
      obtain ⟨hn, hstatic⟩ := hnamed hc
      simp only [hc, Bool.false_eq_true, if_false] at same
      exact Symbols.Entry.method.inj (same (by simp [Symbols.Entry.clashes, hn, hstatic, hparams]))
  · obtain ⟨hof, hsf⟩ := hlegible.spellsField hp hd hf
    obtain ⟨hog, hsg⟩ := hlegible.spellsField hp he hg
    obtain ⟨howner, hn⟩ := Module.fieldRef_inj hsf hsg heq
    rw [hof, hog] at howner
    obtain rfl := hlegible.eq_of_name hd he howner
    have entry : ∀ {f : Field}, f ∈ d.fieldRefs → Symbols.Entry.field f ∈ d.entries := fun hf =>
      List.mem_append_left _ (List.mem_append_left _ (List.mem_map_of_mem hf))
    exact Symbols.Entry.field.inj ((hlegible.defs d hd).distinct.eq_of_clashes (entry hf) (entry hg)
        (by simp [Symbols.Entry.clashes, hn]))

/-- Overloads, static and not, for a number and for an array of strings, and a field. -/
def overloadProgram : Program where
  delegates := []
  classes := [{
    name := "Row"
    fields := [{ name := "cells", type := "string[]", isStatic := false, init := .missing }]
    ctors := [{ params := [{ name := "n", type := "int" }], body := [] }]
    methods := [
      { name := "Put", isStatic := false, ret := "void", params := [{ name := "cell", type := "int" }], body := [] },
      { name := "Put", isStatic := false, ret := "void", params := [{ name := "cells", type := "string[]" }], body := [] },
      { name := "Put", isStatic := true, ret := "void", params := [{ name := "cells", type := "string[]" }],
        body := [] }] }]

theorem member_references_shown_overloads : ∃ c, (compile overloadProgram .textual "m" "v4" false).Gives c ∧
    (∀ src ∈ overloadProgram.sources, src.name.isIdentifier = true) ∧
    (∀ cd ∈ overloadProgram.classes, ∀ decl ∈ cd.methods, decl.name.isIdentifier = true) ∧
    (∀ d ∈ c.module.types.toList, ∀ e ∈ c.module.types.toList, ∀ x ∈ d.routines, ∀ y ∈ e.routines,
      c.module.memberRef x.method = c.module.memberRef y.method → x.method = y.method) ∧
    ∀ d ∈ c.module.types.toList, ∀ e ∈ c.module.types.toList, ∀ f ∈ d.fields.toList, ∀ g ∈ e.fields.toList,
      c.module.fieldRef f = c.module.fieldRef g → f = g := by
  have types : ∀ src ∈ overloadProgram.sources, src.name.isIdentifier = true := by decide
  have methods : ∀ cd ∈ overloadProgram.classes, ∀ decl ∈ cd.methods, decl.name.isIdentifier = true := by decide
  obtain ⟨c, hc⟩ :=
    Logged.gives_of_isOk (x := compile overloadProgram .textual "m" "v4" false) (j := default) (by decide +kernel)
  exact ⟨c, hc, types, methods, member_references_shown hc types methods⟩

end Compilation
end CilCompiler
