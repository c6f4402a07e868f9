import Legible.Proofs.Bundle.Factory
import Legible.Proofs.Bundle.Stability
import Mathlib.Data.List.DropRight
import Mathlib.Data.List.Forall2
import Mathlib.Logic.Function.Basic

namespace Legible.Bundle

/-! ### The table of modules -/

def LastRow {α : Type} (rows : List (Id × α)) (id : Id) (row : Id × α) : Prop :=
  ∃ before after, rows = before ++ row :: after ∧ Key.of row.1 = Key.of id ∧
    ∀ r ∈ after, Key.of r.1 ≠ Key.of id

def Format.readEntry : Format → Id → Tree → Except ShapeError Entry
  | .browserify => browserifyEntry
  | .webpack => webpackEntry

def tableOf? (t : Tree) : Option (Format × Tree) :=
  match firstMatch browserifyShapes t with
  | some c => some (.browserify, captured "expression1" c)
  | none => (firstMatch webpackShapes t).map fun c => (.webpack, captured "expression1" c)

/-- The ids of the rows in the order in which they first come, each with what its last row says. -/
structure Tabulates (format : Format) (rows : List (Id × Tree)) (modules : Table Entry) : Prop where
  ids : modules.keys = (rows.map fun row => Key.of row.1).eraseDups
  last : ∀ id e, modules.get? id = some e →
    ∃ row, LastRow rows id row ∧ format.readEntry row.1 row.2 = .ok e

theorem exists_rows {entry : Id → Tree → Except ShapeError Entry} {t : Tree} {table : Table Entry}
    (h : readTable entry t = .ok table) : ∃ rs : List ((Id × Tree) × Entry),
      pairsOf t = .ok (rs.map (·.1)) ∧ (∀ r ∈ rs, entry r.1.1 r.1.2 = .ok r.2) ∧
      table = Table.insertAll [] (rs.map fun r => (r.1.1, r.2)) := by
  -- A table that is read has met no error, neither in a row nor in what the row says.
  have hgen : ∀ (ps : List (Except ShapeError (Id × Tree))) (start : Table Entry),
      ps.foldlM (fun table pair => do
        let row ← pair
        return table.insert row.1 (← entry row.1 row.2)) start = .ok table →
      ∃ rs : List ((Id × Tree) × Entry), ps.mapM id = .ok (rs.map (·.1)) ∧
        (∀ r ∈ rs, entry r.1.1 r.1.2 = .ok r.2) ∧
        table = start.insertAll (rs.map fun r => (r.1.1, r.2)) := by
    intro ps
    induction ps with
    | nil =>
      intro start hok
      exact ⟨[], rfl, List.forall_mem_nil _, (Except.ok.inj hok).symm⟩
    | cons pair ps ih =>
      intro start hok
      rw [List.foldlM_cons] at hok
      obtain ⟨next, hnext, hok⟩ := exists_of_bind_eq_ok hok
      obtain ⟨row, hpair, hentry⟩ := exists_of_bind_eq_ok hnext
      obtain ⟨e, he, hinsert⟩ := exists_of_bind_eq_ok hentry
      obtain rfl := Except.ok.inj hinsert
      obtain ⟨rs, hrs, hall, rfl⟩ := ih _ hok
      refine ⟨(row, e) :: rs, ?_, List.forall_mem_cons.mpr ⟨he, hall⟩, rfl⟩
      rw [List.mapM_cons, hpair, hrs]
      rfl
  exact hgen _ [] h

theorem tabulates {format : Format} {rs : List ((Id × Tree) × Entry)}
    (h : ∀ r ∈ rs, format.readEntry r.1.1 r.1.2 = .ok r.2) :
    Tabulates format (rs.map (·.1)) (Table.insertAll [] (rs.map fun r => (r.1.1, r.2))) := by
  constructor
  · rw [Table.keys_insertAll, List.map_map, List.map_map]
    simp [Table.keys, Function.comp_def]
  · intro id e he
    have hkey := Table.mem_keys_insertAll.mp (Table.mem_keys_of_get? he)
    obtain ⟨_, _, _, hsplit, hid, hlater, hget⟩ :=
      Table.exists_of_mem_insertAll (hkey.resolve_left List.not_mem_nil)
    obtain ⟨before, rest, rfl, rfl, hrest⟩ := List.map_eq_append_iff.mp hsplit
    obtain ⟨r, after, rfl, rfl, rfl⟩ := List.map_eq_cons_iff.mp hrest
    obtain rfl := Option.some.inj ((hget []).symm.trans he)
    rw [List.forall_mem_map] at hlater
    refine ⟨r.1, ⟨before.map (·.1), after.map (·.1), by simp, hid, ?_⟩, h r (by simp)⟩
    rwa [List.forall_mem_map]

theorem exists_table {t : Tree} {l : Layout} (h : Layout.ofTree t = .ok l) :
    ∃ table rows, tableOf? t = some (l.format, table) ∧ pairsOf table = .ok rows ∧
      Tabulates l.format rows l.modules := by
  unfold Layout.ofTree at h
  split at h
  · rename_i c hc
    have hread := exists_of_mapError h
    unfold readBrowserify at hread
    split at hread
    · cases hread
    · obtain ⟨modules, hm, hl⟩ := exists_of_bind_eq_ok hread
      obtain rfl := Except.ok.inj hl
      obtain ⟨rs, hrs, hall, rfl⟩ := exists_rows hm
      exact ⟨_, _, by rw [tableOf?, hc], hrs, tabulates hall⟩
  · rename_i hb
    split at h
    · rename_i c hc
      obtain ⟨modules, hm, hl⟩ := exists_of_bind_eq_ok (exists_of_mapError h)
      obtain rfl := Except.ok.inj hl
      obtain ⟨rs, hrs, hall, rfl⟩ := exists_rows hm
      exact ⟨_, _, by rw [tableOf?, hb, hc]; rfl, hrs, tabulates hall⟩
    · cases h

/-! ### Names without slashes at the end -/

def Stripped (name stripped : String) : Prop :=
  ∃ cs n, name.toList = cs ++ List.replicate n '/' ∧ cs.getLast? ≠ some '/' ∧
    stripped.toList = if cs = [] then ['/'] else cs

theorem stripped_withoutFinalSlashes (name : String) : Stripped name (withoutFinalSlashes name) := by
  have hdrop : FilePath.dropSlashesRight name.toList = name.toList.rdropWhile (· == '/') := rfl
  have hslashes : name.toList.rtakeWhile (· == '/') =
      List.replicate (name.toList.rtakeWhile (· == '/')).length '/' := by
    rw [List.eq_replicate_iff]
    exact ⟨rfl, fun c hc => by simpa using List.mem_rtakeWhile_imp hc⟩
  refine ⟨_, _, hslashes ▸ (List.rdropWhile_append_rtakeWhile ..).symm, ?_, ?_⟩
  · intro hlast
    have hne : name.toList.rdropWhile (· == '/') ≠ [] := by
      intro hnil
      rw [hnil] at hlast
      cases hlast
    rw [List.getLast?_eq_getLast_of_ne_nil hne, Option.some_inj] at hlast
    exact List.rdropWhile_last_not _ _ hne (beq_iff_eq.mpr hlast)
  · rw [withoutFinalSlashes, hdrop]
    cases name.toList.rdropWhile (· == '/') with
    | nil => rfl
    | cons c cs => simp

theorem withoutFinalSlashes_ne (name : String) : withoutFinalSlashes name ≠ "" := by
  obtain ⟨cs, n, -, -, hs⟩ := stripped_withoutFinalSlashes name
  intro he
  rw [he] at hs
  split at hs
  · cases hs
  · rename_i hcs
    exact hcs hs.symm

/-! ### The modules -/

structure Prepared (parse : Parser) (format : Format) (factory : Tree) (m : Module) : Prop where
  inlined : ∃ f, inlineEval parse factory = .ok f ∧ m.factory = f.numbered
  scope : (Scope.ofTree m.factory).acquire? m.factory.tag = some m.path
  renamed : ∃ s, (Scope.ofTree m.factory).at? m.path = some s ∧ s.kind = .function ∧
    (m.scopes, m.names) = renameParameters m.path
      (parameterPairs s (factory.get "params").items format.parameterNames)
      (Scope.ofTree m.factory, ∅)
  body : m.body = m.names.apply (m.factory.get "body")

variable {parse : Parser}

theorem prepared_of_moduleOf {format : Format} {id : Id} {name : String} {factory : Tree}
    {m : Module} (h : moduleOf parse format id name factory = .ok m) :
    m.id = id ∧ m.name = withoutFinalSlashes name ∧ Prepared parse format factory m := by
  unfold moduleOf at h
  split at h
  · cases h
  · rename_i c hc
    obtain ⟨hfactory, hparams⟩ := factory_of_match hc
    obtain ⟨f, hf, hm⟩ := exists_of_bind_eq_ok h
    obtain ⟨hscope, s, hs, hkind, -⟩ := (hfactory.inlined hf).numbered.scope
    simp only [hscope, Option.getD_some, hs, hparams] at hm
    obtain rfl := Except.ok.inj hm
    exact ⟨rfl, rfl, ⟨f, hf, rfl⟩, hscope, ⟨s, hs, hkind, rfl⟩, rfl⟩

def IsSplit (parse : Parser) (l : Layout) (n : Id × String) (m : Module) : Prop :=
  ∃ e, l.modules.get? n.1 = some e ∧ moduleOf parse l.format n.1 n.2 e.factory = .ok m

theorem IsSplit.id_eq {l : Layout} {n : Id × String} {m : Module} (h : IsSplit parse l n m) :
    m.id = n.1 := by
  obtain ⟨e, -, hm⟩ := h
  exact (prepared_of_moduleOf hm).1

theorem IsSplit.name_eq {l : Layout} {n : Id × String} {m : Module} (h : IsSplit parse l n m) :
    m.name = withoutFinalSlashes n.2 := by
  obtain ⟨e, -, hm⟩ := h
  exact (prepared_of_moduleOf hm).2.1

theorem exists_splits {l : Layout} {ns : List (Id × String)}
    (h : (splitNamed parse l ns).failure = none) : ∃ rs : List ((Id × String) × Module),
      ns.filter (fun n => l.modules.contains n.1) = rs.map (·.1) ∧
      (splitNamed parse l ns).modules = rs.map (·.2) ∧ ∀ r ∈ rs, IsSplit parse l r.1 r.2 := by
  induction ns with
  | nil => exact ⟨[], rfl, rfl, List.forall_mem_nil _⟩
  | cons n ns ih =>
    obtain ⟨id, name⟩ := n
    simp only [splitNamed] at h ⊢
    cases he : l.modules.get? id with
    | none =>
      have hno : l.modules.contains id = false := by
        rw [Table.contains_eq_false_iff, ← Table.get?_eq_none_iff, he]
      simp only [he] at h ⊢
      rw [List.filter_cons_of_neg (by simp [hno])]
      exact ih h
    | some e =>
      have hyes : l.modules.contains id = true :=
        Table.contains_iff.mpr (Table.mem_keys_of_get? he)
      simp only [he] at h ⊢
      rw [List.filter_cons_of_pos (by exact hyes)]
      cases hm : moduleOf parse l.format id name e.factory with
      | error x =>
        rw [hm] at h
        cases h
      | ok m =>
        rw [hm] at h
        obtain ⟨rs, hrs, hms, hall⟩ := ih h
        refine ⟨((id, name), m) :: rs, congrArg _ hrs, congrArg _ hms, ?_⟩
        exact List.forall_mem_cons.mpr ⟨⟨e, he, hm⟩, hall⟩

section

variable {l : Layout} {ns : Table String} {rs : List ((Id × String) × Module)}
  (hrs : ns.filter (fun n => l.modules.contains n.1) = rs.map (·.1))
  (hall : ∀ r ∈ rs, IsSplit parse l r.1 r.2)

include hrs hall

theorem keys_splits :
    rs.map (fun r => Key.of r.2.id) = ns.keys.filter (· ∈ l.modules.keys) := by
  have hids : rs.map (fun r => Key.of r.2.id) = (rs.map (·.1)).map fun n => Key.of n.1 := by
    rw [List.map_map]
    exact List.map_congr_left fun r hr => congrArg Key.of (hall r hr).id_eq
  have hfilter : ns.filter (fun n => l.modules.contains n.1) =
      ns.filter ((fun k => decide (k ∈ l.modules.keys)) ∘ fun n => Key.of n.1) := by
    refine List.filter_congr fun n _ => ?_
    rw [Bool.eq_iff_iff, Table.contains_iff, Function.comp_apply, decide_eq_true_iff]
  rw [hids, ← hrs, hfilter, ← List.filter_map]
  rfl

theorem get?_splits (hn : ns.keys.Nodup) : ∀ r ∈ rs, ns.get? r.2.id = some r.1.2 := by
  intro r hr
  have hmem : r.1 ∈ ns := by
    have hm := List.mem_map_of_mem (f := (·.1)) hr
    rw [← hrs] at hm
    exact List.mem_of_mem_filter hm
  rw [(hall r hr).id_eq]
  exact Table.get?_of_mem hn hmem

end

/-! ### All names -/

theorem Layout.map_ids (l : Layout) : l.ids.map Key.of = l.modules.keys := by
  rw [ids, List.map_map]
  rfl

theorem keys_subset_of_resolve {l : Layout} {r : Resolution} (hn : l.modules.keys.Nodup)
    (hr : resolve l = .ok r) : ∀ k ∈ l.modules.keys, k ∈ r.names.keys := by
  intro k hk
  obtain ⟨names, hnames⟩ : ∃ names, r.names = nameRest l.ids names := by
    rw [resolve] at hr
    cases hf : resolveFormat l with
    | error e =>
      rw [hf] at hr
      cases hr
    | ok r' =>
      rw [hf] at hr
      exact ⟨r'.names, by rw [← Except.ok.inj hr]; rfl⟩
  rw [hnames, Layout.mem_keys_nameRest (Layout.nodup_ids hn)]
  obtain ⟨m, hm, rfl⟩ := Table.mem_keys.mp hk
  exact Or.inr ⟨m.1, List.mem_map_of_mem hm, rfl⟩

theorem exists_keys_of_resolve {l : Layout} {r : Resolution} (hn : l.modules.keys.Nodup)
    (hr : resolve l = .ok r) : ∃ rest, r.names.keys = (l.entries.map Key.of).eraseDups ++ rest := by
  obtain ⟨ws, hws⟩ : ∃ ws, l.writes = entryWrites l.entries ++ ws := by
    unfold Layout.writes
    split
    · exact ⟨_, by rw [Layout.seedWrites, List.append_assoc, List.append_assoc]⟩
    · exact ⟨_, rfl⟩
  have hentries : (entryWrites l.entries).map (fun w => Key.of w.1) = l.entries.map Key.of := by
    conv_rhs => rw [← map_fst_entryWrites l.entries, List.map_map]
    rfl
  rw [Layout.names_eq_writes hn hr, hws, Table.insertAll_append, Table.keys_insertAll,
    Table.keys_insertAll, hentries]
  simp [Table.keys]

/-! ### Splitting -/

def listedName (names : Table String) (id : Id) : String :=
  withoutFinalSlashes ((names.get? id).getD "")

/-- Modules that are those of a table, each once, the entries first. -/
structure Complete (l : Layout) (names : Table String) (ms : List Module) : Prop where
  nodup : (ms.map fun m => Key.of m.id).Nodup
  all : ∀ k, k ∈ ms.map (fun m => Key.of m.id) ↔ k ∈ l.modules.keys
  entries : ∃ rest, ms.map (fun m => Key.of m.id) =
    (l.entries.map Key.of).eraseDups.filter (· ∈ l.modules.keys) ++ rest ∧
      ∀ id ∈ l.entries, Key.of id ∉ rest
  listed : (ms.map fun m => (Key.of m.id, m.name)).Perm
    (l.ids.map fun id => (Key.of id, listedName names id))
  names : ∀ m ∈ ms, m.name ≠ "" ∧ ∃ name, names.get? m.id = some name ∧ Stripped name m.name

theorem Complete.exists_module {l : Layout} {names : Table String} {ms : List Module}
    (h : Complete l names ms) {id : Id} (hid : id ∈ l.ids) :
    ∃ m ∈ ms, Key.of m.id = Key.of id := by
  have hkey := List.mem_map_of_mem (f := Key.of) hid
  rw [l.map_ids, ← h.all] at hkey
  exact List.mem_map.mp hkey

theorem Complete.exists_id {l : Layout} {names : Table String} {ms : List Module}
    (h : Complete l names ms) {m : Module} (hm : m ∈ ms) :
    ∃ id ∈ l.ids, Key.of id = Key.of m.id := by
  have hkey := (h.all _).mp (List.mem_map_of_mem hm)
  rw [← l.map_ids] at hkey
  exact List.mem_map.mp hkey

theorem perm_listed {l : Layout} {names : Table String} {ms : List Module}
    (h : (ms.map fun m => Key.of m.id).Perm (l.ids.map Key.of))
    (hname : ∀ m ∈ ms, m.name = listedName names m.id) :
    (ms.map fun m => (Key.of m.id, m.name)).Perm
      (l.ids.map fun id => (Key.of id, listedName names id)) := by
  -- What is listed of an id depends on its key only.
  have hfactor : Function.FactorsThrough (fun id => (Key.of id, listedName names id)) Key.of := by
    intro a b hab
    simp only [listedName, Table.get?_congr hab, hab]
  have hmap := h.map (Function.extend Key.of (fun id => (Key.of id, listedName names id)) fun k => (k, ""))
  rw [List.map_map, List.map_map, hfactor.extend_comp] at hmap
  refine (List.Perm.of_eq (List.map_congr_left fun m hm => ?_)).trans hmap
  rw [Function.comp_apply, hfactor.extend_apply, hname m hm]

theorem complete_splitNamed {l : Layout} {r : Resolution} (hn : l.modules.keys.Nodup)
    (hr : resolve l = .ok r) (h : (splitNamed parse l r.names).failure = none) :
    Complete l r.names (splitNamed parse l r.names).modules ∧
      ∀ m ∈ (splitNamed parse l r.names).modules, ∃ name, IsSplit parse l (m.id, name) m := by
  obtain ⟨rs, hrs, hms, hall⟩ := exists_splits h
  have hnames : r.names.keys.Nodup := by
    rw [Layout.names_eq_writes hn hr]
    exact Table.nodup_insertAll (t := []) List.nodup_nil _
  have hkeys := keys_splits hrs hall
  have hname := get?_splits hrs hall hnames
  have hnodup : (rs.map fun r => Key.of r.2.id).Nodup := hkeys ▸ hnames.filter _
  have hiff : ∀ k, k ∈ rs.map (fun r => Key.of r.2.id) ↔ k ∈ l.modules.keys := by
    intro k
    rw [hkeys, List.mem_filter, decide_eq_true_iff]
    exact and_iff_right_of_imp (keys_subset_of_resolve hn hr k)
  rw [hms]
  refine ⟨⟨?_, ?_, ?_, ?_, ?_⟩, ?_⟩
  · rwa [List.map_map]
  · rwa [List.map_map]
  · obtain ⟨rest, hrest⟩ := exists_keys_of_resolve hn hr
    rw [hrest] at hkeys hnames
    refine ⟨rest.filter (· ∈ l.modules.keys), ?_, fun id hid hm => ?_⟩
    · rw [List.map_map, ← List.filter_append]
      exact hkeys
    · refine (List.nodup_append.mp hnames).2.2 _ ?_ _ (List.mem_of_mem_filter hm) rfl
      exact List.mem_eraseDups.mpr (List.mem_map_of_mem hid)
  · apply perm_listed
    · rw [List.map_map]
      refine (List.perm_ext_iff_of_nodup hnodup (Layout.nodup_ids hn)).mpr fun k => ?_
      rw [hiff, Layout.map_ids]
    · rw [List.forall_mem_map]
      intro x hx
      rw [listedName, hname x hx, Option.getD_some, (hall x hx).name_eq]
  · rw [List.forall_mem_map]
    intro x hx
    rw [(hall x hx).name_eq]
    exact ⟨withoutFinalSlashes_ne _, _, hname x hx, stripped_withoutFinalSlashes _⟩
  · rw [List.forall_mem_map]
    intro x hx
    exact ⟨x.1.2, (hall x hx).id_eq ▸ hall x hx⟩

theorem exists_complete {t : Tree} (h : (split parse t).failure = none) :
    ∃ l r, Layout.ofTree t = .ok l ∧ resolve l = .ok r ∧
      Complete l r.names (split parse t).modules ∧
      ∀ m ∈ (split parse t).modules, ∃ name, IsSplit parse l (m.id, name) m := by
  simp only [split] at h ⊢
  cases hl : Layout.ofTree t with
  | error e =>
    rw [hl] at h
    cases h
  | ok l =>
    simp only [hl] at h ⊢
    cases hr : resolve l with
    | error e =>
      rw [hr] at h
      cases h
    | ok r =>
      simp only [hr] at h ⊢
      exact ⟨l, r, rfl, hr, complete_splitNamed (Layout.nodup_ofTree hl) hr h⟩

def bundle (entries : List Id) (modules : List (Id × List Tree × List (String × Id))) : Tree :=
  let literals := entries.map fun id => Form.literal id (spelled id)
  let factory (statements : List Tree) :=
    Form.functionExpression Form.null [Form.identifier "e"] (Form.blockStatement statements)
  let row (m : Id × List Tree × List (String × Id)) :=
    Form.property (Form.literal m.1 (spelled m.1)) false
      (Form.arrayExpression [factory m.2.1, dependencyTable m.2.2]) "init" false
  let loader := Form.functionExpression Form.null [] (Form.blockStatement [])
  Form.program [Form.expressionStatement (Form.callExpression (Form.callExpression loader [])
    [Form.objectExpression (modules.map row), Form.objectExpression [],
      Form.arrayExpression literals])]

end Legible.Bundle
