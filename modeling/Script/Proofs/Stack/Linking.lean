/-
The code of a program is placed as it should be. The functions at the top
get their names and their places first, then the statements are made, and
the bodies come last. Every function has a place of its own, so filling
one leaves the others as they are; and while the bodies are made, the
names at the top are those of the finished program.
-/
import Script.Proofs.Stack.Bodies
import Script.Proofs.Stack.Nested

namespace Script

namespace Code.Symbols

/-- At the top of a program: no function is open, and no block. -/
structure AtTop (s : Symbols) : Prop where
  inner : s.inner = []
  outer : s.main.outer = []

variable {s s' : Symbols} {roots : Names} {limit : Nat}

theorem AtTop.grows (h : s.AtTop) (hgrows : s.Grows s') : s'.AtTop := by
  obtain ⟨inner, main⟩ := s
  obtain ⟨rfl, houter⟩ := h
  obtain ⟨f, hf, rfl⟩ := hgrows
  exact ⟨rfl, hf.outer.trans houter⟩

theorem AtTop.site (h : s.AtTop) (limit : Nat) :
    s.site limit = ⟨false, limit, []⟩ := by
  obtain ⟨inner, main⟩ := s
  obtain ⟨rfl, houter⟩ := h
  have houter' : main.outer = [] := houter
  unfold Symbols.site Frame.tables current
  simp [inMain, houter']

theorem AtTop.current (h : s.AtTop) : s.current = s.main := by
  unfold Symbols.current
  rw [h.inner]
  rfl

theorem AtTop.taken (h : s.AtTop) :
    s.main.taken = s.main.block.map (·.2) := by
  unfold Frame.taken Frame.tables
  rw [h.outer]
  simp

theorem AtTop.openFrame (h : s.AtTop) :
    s.openFrame = ⟨[⟨[], [], []⟩], s.main⟩ := by
  unfold Symbols.openFrame
  rw [h.inner]
  rfl

/-- The finished program fits itself. -/
theorem AtTop.fits (h : s.AtTop) :
    s.Fits s.main.block s.main.slots.length := by
  obtain ⟨inner, main⟩ := s
  obtain ⟨rfl, houter⟩ := h
  have hroot : main.root = main.block := by
    have houter' : main.outer = [] := houter
    unfold Frame.root
    rw [houter']
    rfl
  refine .main (Nat.le_refl _) ?_ ?_
  · exact fun name slot hname => hroot ▸ hname
  · exact fun name slot hname => .inl (hroot.symm ▸ hname)

end Code.Symbols

namespace Stack

open Code Script.Action

variable {s s' s₁ : Emission} {code : List Instr} {start index : Nat}
  {constants : List Constant} {roots : Names} {limit : Nat}
  {full : List Instr} {u : Unit}

-- ============================================================ parameters

/-- Parameters get the slots from the next one on. -/
theorem parameters_ok {params : List Ident} {t : Names}
    {names : List String} {main : Frame}
    (hs : s.symbols = ⟨[⟨t, [], names⟩], main⟩)
    (hfresh : ∀ p ∈ params, t.lookup p.name = none)
    (hdistinct : (params.map (·.name)).Nodup)
    (h : (params.forM fun p => discard (Code.declare p.name) : Emit Unit) s =
      .ok u s') :
    s' = { s with symbols :=
      ⟨[⟨paramsFrom names.length params ++ t, [],
        names ++ params.map (·.name)⟩], main⟩ }
      ∧ s.symbols.Grows s'.symbols := by
  induction params generalizing t names s with
  | nil =>
      obtain ⟨-, rfl⟩ := pure_ok.1 h
      refine ⟨?_, .refl _⟩
      simp [paramsFrom, ← hs]
  | cons p params ih =>
      have hp := hfresh p (List.mem_cons_self ..)
      obtain ⟨hnot, hdistinct'⟩ := List.nodup_cons.1 hdistinct
      have hframe : ({ s with
          symbols := (s.symbols.declare p.name).2 } : Emission).symbols =
            ⟨[⟨(p.name, names.length) :: t, [], names ++ [p.name]⟩], main⟩ := by
        show (s.symbols.declare p.name).2 = _
        rw [hs]
        show (⟨[(Frame.declare ⟨t, [], names⟩ p.name).2], main⟩ : Symbols) = _
        rw [Frame.declare_of_none hp]
      have hfresh' : ∀ q ∈ params,
          ((p.name, names.length) :: t).lookup q.name = none := by
        intro q hq
        have hne : q.name ≠ p.name := fun heq =>
          hnot (List.mem_map.2 ⟨q, hq, heq⟩)
        rw [List.lookup_cons, beq_eq_false_iff_ne.2 hne]
        exact hfresh q (List.mem_cons_of_mem _ hq)
      obtain ⟨hs', hgrows⟩ :=
        ih hframe hfresh' hdistinct' (declareParams_cons h)
      refine ⟨?_, (Symbols.Grows.declare s.symbols p.name).trans hgrows⟩
      rw [hs', paramsFrom_cons]
      simp

-- ============================================================= functions

theorem fill_ok {locals : List String}
    (h : fill index locals code s = .ok u s') :
    s' = { s with functions :=
      s.functions.modify index fun f => { f with locals, code } } :=
  (modify_ok.1 h).symm

/-- What is known of the code of a function: only its place is filled, and
with the code of the function. -/
structure MakesFunction (s s' : Emission) (index : Nat) (d : FnDecl) :
    Prop where
  symbols : s'.symbols = s.symbols
  constants : s.constants.toList <+: s'.constants.toList
  placed : ∃ locals code, s'.functions =
      s.functions.modify index (fun f => { f with locals, code })
    ∧ ∀ {c : Code} {roots : Names} {f : Function},
      s'.constants.toList <+: c.constants →
        (∀ name slot, s.symbols.main.block.lookup name = some slot →
          roots.lookup name = some slot) →
            f.name = d.name.name → f.arity = d.params.length →
              FunctionAt c roots d { f with locals, code }

/-- A function that is open, with its parameters in the first slots; it is
the only thing that is new. -/
structure OpensFunction (s s' : Emission) (params : List Ident) :
    Prop where
  symbols : s'.symbols =
    ⟨[⟨paramsFrom 0 params, [], params.map (·.name)⟩], s.symbols.main⟩
  wf : s'.symbols.current.Wf
  constants : s'.constants = s.constants
  functions : s'.functions = s.functions

theorem openFunction_ok {params : List Ident}
    (hdistinct : (params.map (·.name)).Nodup) (htop : s.symbols.AtTop)
    (hparams : (params.forM fun p => discard (Code.declare p.name) :
      Emit Unit) { s with symbols := s.symbols.openFrame } = .ok u s') :
    OpensFunction s s' params := by
  obtain ⟨rfl, hgrows⟩ :=
    parameters_ok htop.openFrame (fun _ _ => rfl) hdistinct hparams
  refine ⟨by simp, hgrows.wf ?_, rfl, rfl⟩
  show s.symbols.openFrame.current.Wf
  rw [htop.openFrame]
  exact .empty

theorem OpensFunction.site {params : List Ident}
    (h : OpensFunction s s' params) (limit : Nat) :
    s'.symbols.site limit = ⟨true, limit, [paramTable params]⟩ := by
  rw [h.symbols, paramTable_eq]
  rfl

theorem functionCode_ok {d : FnDecl} (hplain : d.body.isPlain = true)
    (hbraced : d.isBraced = true)
    (hdistinct : (d.params.map (·.name)).Nodup) (htop : s.symbols.AtTop)
    (h : functionCode index d s = .ok u s') :
    MakesFunction s s' index d := by
  obtain ⟨s₂, s₃, s₄, code, result, hparams, hcode, hresult, hfill⟩ :=
    functionCode_steps h
  obtain ⟨name, params, ⟨statements, bodySpan⟩, span⟩ := d
  obtain rfl := fill_ok hfill
  have hopened := openFunction_ok hdistinct htop hparams
  have hstmts := statementCode_ok statements hplain hbraced hcode
  obtain ⟨hsteady, k, rfl, hk⟩ := push_ok hresult
  obtain ⟨f, hf, hs₃⟩ := hstmts.growing.symbols
  rw [hopened.symbols] at hf hs₃
  have hclosed : s₄.symbols.closeFrame = (f.slots, s.symbols) := by
    obtain ⟨⟨inner, main⟩, _, _, _⟩ := s
    obtain ⟨rfl, -⟩ := htop
    rw [hsteady.symbols, hs₃]
    rfl
  refine ⟨congrArg Prod.snd hclosed, ?_, f.slots,
    code ++ [.pushConst k] ++ [.leave], ?_, ?_⟩
  · rw [← hopened.constants]
    exact hstmts.growing.constants.trans hsteady.constants
  · rw [hclosed]
    dsimp only
    rw [hsteady.functions, hstmts.growing.functions, hopened.functions]
  · intro c roots g hconstants hknown hname harity
    have hfits : s₃.symbols.Fits roots f.slots.length := by
      rw [hs₃]
      exact .function (Nat.le_refl _) htop.outer hknown
    have hslots : (params.map (·.name)).length ≤ f.slots.length := hf.slots
    rw [List.length_map] at hslots
    have hall := At.all (code ++ [.pushConst k] ++ [.leave])
    have hplaced := hstmts.placed (hsteady.constants.trans hconstants)
      hopened.wf hfits hall.left.left
    rw [hopened.site] at hplaced
    refine ⟨hname, harity, hslots, 0 + code.length,
      s₃.symbols.site f.slots.length, hplaced, ?_, ?_⟩
    · exact pushAt hk hconstants (hall.left.right.head rfl)
    · refine hall.right.head ?_
      simp

-- ============================================================== hoisting

/-- The place of a function whose body is still to come. -/
def reserved (d : FnDecl) : Function :=
  ⟨d.name.name, d.params.length, [], []⟩

/-- What is known of the code that binds functions. -/
structure MakesBinds (s s' : Emission) (start : Nat) (ds : List FnDecl)
    (code : List Instr) (bodies : List (Nat × FnDecl)) : Prop where
  symbols : s.symbols.Grows s'.symbols
  constants : s'.constants = s.constants
  functions : s'.functions.toList = s.functions.toList ++ ds.map reserved
  bodies : bodies = ds.mapIdx fun k d => (s.functions.size + k, d)
  placed : ∀ {roots limit full}, s.symbols.current.Wf →
    s'.symbols.Fits roots limit → At full start code →
      BindsAt roots full start s.functions.size ds (start + code.length)

theorem BindsAt.cast {ds : List FnDecl} {i j k : Nat}
    (h : BindsAt roots full i index ds j) (hk : k = j) :
    BindsAt roots full i index ds k :=
  hk ▸ h

theorem Declares.top_inv {name : String} {x : Symbol} {site' : Site}
    (h : Declares roots name ⟨false, limit, []⟩ x site') :
    ∃ slot, roots.lookup name = some slot ∧ x = .global slot := by
  cases h with
  | top hroot => exact ⟨_, hroot, rfl⟩
  | again htables => cases htables

theorem hoist_ok {ds : List FnDecl} {bodies : List (Nat × FnDecl)}
    (htop : s.symbols.AtTop) (h : hoist ds s = .ok (code, bodies) s') :
    MakesBinds s s' start ds code bodies := by
  induction ds generalizing s start code bodies with
  | nil =>
      obtain ⟨hcode, rfl⟩ := pure_ok.1 h
      obtain ⟨rfl, rfl⟩ := Prod.mk.inj hcode
      exact ⟨.refl _, rfl, by simp, rfl, fun _ _ _ => .nil⟩
  | cons d ds ih =>
      obtain ⟨x, s₁, hdeclare, h₁⟩ := bind_ok.1 h
      obtain ⟨place, s₂, hreserve, h₂⟩ := bind_ok.1 h₁
      obtain ⟨⟨code', bodies'⟩, s₃, hrest, hcode⟩ := bind_ok.1 h₂
      obtain ⟨hpair, rfl⟩ := pure_ok.1 hcode
      obtain ⟨rfl, rfl⟩ := Prod.mk.inj hpair
      obtain ⟨rfl, rfl⟩ := declare_ok hdeclare
      obtain ⟨rfl, rfl⟩ := Prod.mk.inj (modifyGet_ok.1 hreserve)
      have hgrows := Symbols.Grows.declare s.symbols d.name.name
      have hds : MakesBinds _ s₃ (start + 2) ds code' bodies' :=
        ih (htop.grows hgrows) hrest
      refine ⟨hgrows.trans hds.symbols, hds.constants, ?_, ?_, ?_⟩
      · rw [hds.functions]
        simp [reserved]
      · rw [hds.bodies, List.mapIdx_cons]
        simp [Nat.add_assoc, Nat.add_comm 1]
      · intro roots limit full hwf hfits hat
        have hdeclares := Symbols.Fits.declares hwf
          (hfits.before hds.symbols)
        rw [htop.site] at hdeclares
        obtain ⟨slot, hslot, hx⟩ := hdeclares.top_inv
        rw [hx] at hat ⊢
        have hplaced := hds.placed (hgrows.wf hwf) hfits hat.tail.tail
        have hsize : (s.functions.push
            ⟨d.name.name, d.params.length, [], []⟩).size =
              s.functions.size + 1 := Array.size_push ..
        rw [hsize] at hplaced
        refine .cast (.cons hslot (hat.head rfl) (hat.tail.head rfl)
          hplaced) ?_
        show start + (code'.length + 1 + 1) = start + 2 + code'.length
        omega

section

variable {ds : List FnDecl} {bodies : List (Nat × FnDecl)}

/-- The bodies go to the places behind those that there were before. -/
theorem MakesBinds.indices (h : MakesBinds s s' start ds code bodies) :
    bodies.map (·.1) = List.range' s.functions.size ds.length := by
  rw [h.bodies]
  exact List.ext_getElem (by simp) fun n hn hn' => by simp

theorem MakesBinds.mem_bodies (h : MakesBinds s s' start ds code bodies)
    {k : Nat} {d : FnDecl} (hd : ds[k]? = some d) :
    (s.functions.size + k, d) ∈ bodies := by
  obtain ⟨hk, rfl⟩ := List.getElem?_eq_some_iff.1 hd
  rw [h.bodies]
  exact List.mem_mapIdx.2 ⟨k, hk, rfl⟩

theorem MakesBinds.mem_of_mem_bodies
    (h : MakesBinds s s' start ds code bodies) {q : Nat × FnDecl}
    (hq : q ∈ bodies) : q.2 ∈ ds := by
  rw [h.bodies] at hq
  obtain ⟨n, hn, rfl⟩ := List.mem_mapIdx.1 hq
  exact List.getElem_mem hn

end

-- ====================================================== top of a program

/-- What is known of the code of the statements at the top of a
program. -/
structure MakesTop (s s' : Emission) (start : Nat) (ts : List Stmt)
    (code : List Instr) : Prop where
  growing : Growing s s'
  placed : ∀ {constants roots limit full},
    s'.constants.toList <+: constants → s.symbols.current.Wf →
      s'.symbols.Fits roots limit → At full start code →
        TopAt constants roots full ⟨false, limit, []⟩ start ts
          (start + code.length)

theorem MakesTop.cons {t : Stmt} {ts : List Stmt} {first rest : List Instr}
    (htop : s.symbols.AtTop) (hlast : ∀ span e, t :: ts ≠ [.expression span e])
    (ht : MakesStmt s s₁ start t first)
    (hts : MakesTop s₁ s' (start + first.length) ts rest) :
    MakesTop s s' start (t :: ts) (first ++ rest) := by
  refine ⟨ht.growing.trans hts.growing, fun hconstants hwf hfits hat => ?_⟩
  have hplaced := hts.placed hconstants (ht.growing.symbols.wf hwf) hfits
    hat.right
  rw [Nat.add_assoc, ← List.length_append] at hplaced
  have hfirst := ht.placed (hts.growing.constants.trans hconstants) hwf
    (hfits.before hts.growing.symbols) hat.left
  rw [htop.site, (htop.grows ht.growing.symbols).site] at hfirst
  exact .cons hlast hfirst hplaced

theorem topLevelCode_ok {ts : List Stmt}
    (hflat : ts.all Stmt.isFlat = true) (hbraced : stmtsAreBraced ts = true)
    (htop : s.symbols.AtTop) (h : topLevelCode start ts s = .ok code s') :
    MakesTop s s' start ts code := by
  induction ts generalizing s start code with
  | nil =>
      obtain ⟨hsteady, k, rfl, hk⟩ := push_ok h
      exact ⟨hsteady.growing, fun hconstants _ _ hat =>
        .nil (pushAt hk hconstants (hat.head rfl))⟩
  | cons t ts ih =>
      rw [List.all_cons, Bool.and_eq_true_iff] at hflat
      obtain ⟨hbraced, hbraced'⟩ := Bool.and_eq_true_iff.1 hbraced
      rcases topLevelCode_cons h with ⟨d, rfl, hrest⟩
        | ⟨span, e, rfl, rfl, he⟩
        | ⟨hother, hlast, s₁, first, rest, hfirst, hrest, rfl⟩
      · have hts := ih hflat.2 hbraced' htop hrest
        exact ⟨hts.growing, fun hconstants hwf hfits hat =>
          .function (hts.placed hconstants hwf hfits hat)⟩
      · have he := exprCode_ok e he
        refine ⟨he.steady.growing, fun hconstants _ hfits hat => ?_⟩
        rw [he.steady.symbols] at hfits
        have hplaced := he.placed hconstants hfits hat
        rw [htop.site] at hplaced
        exact .last hplaced
      · have hplain : t.isPlain = true := by
          cases t with
          | function d => cases hother
          | _ => exact hflat.1
        have ht := stmtCode_ok t hplain hbraced hfirst
        exact .cons htop hlast ht
          (ih hflat.2 hbraced' (htop.grows ht.growing.symbols) hrest)

-- ================================================================ bodies

/-- What the code of a function needs to know of it. -/
structure Good (d : FnDecl) : Prop where
  plain : d.body.isPlain = true
  braced : d.isBraced = true
  distinct : (d.params.map (·.name)).Nodup

/-- What is known of the code of the functions in their places. -/
structure MakesBodies (s s' : Emission) (bodies : List (Nat × FnDecl)) :
    Prop where
  symbols : s'.symbols = s.symbols
  constants : s.constants.toList <+: s'.constants.toList
  others : ∀ j, j ∉ bodies.map (·.1) → s'.functions[j]? = s.functions[j]?
  placed : ∀ index d f, (index, d) ∈ bodies →
    s.functions[index]? = some f → f.name = d.name.name →
      f.arity = d.params.length → ∃ f', s'.functions[index]? = some f'
        ∧ ∀ {c : Code} {roots : Names},
          s'.constants.toList <+: c.constants →
            (∀ name slot, s.symbols.main.block.lookup name = some slot →
              roots.lookup name = some slot) → FunctionAt c roots d f'

theorem bodies_ok {bodies : List (Nat × FnDecl)}
    (hgood : ∀ p ∈ bodies, Good p.2) (htop : s.symbols.AtTop)
    (hdistinct : (bodies.map (·.1)).Nodup)
    (h : (bodies.forM fun (index, d) => functionCode index d : Emit Unit) s =
      .ok u s') : MakesBodies s s' bodies := by
  induction bodies generalizing s with
  | nil =>
      obtain ⟨-, rfl⟩ := pure_ok.1 h
      exact ⟨rfl, List.prefix_refl _, fun _ _ => rfl,
        fun _ _ _ hmem => nomatch hmem⟩
  | cons p bodies ih =>
      obtain ⟨index, d⟩ := p
      obtain ⟨u', s₁, hfirst, hrest⟩ := bind_ok.1 h
      obtain ⟨hplain, hbraced, hparams⟩ := hgood _ (List.mem_cons_self ..)
      obtain ⟨hnot, hdistinct'⟩ := List.nodup_cons.1 hdistinct
      have hd := functionCode_ok hplain hbraced hparams htop hfirst
      have hds := ih (fun p hp => hgood p (List.mem_cons_of_mem _ hp))
        (hd.symbols.symm ▸ htop) hdistinct' hrest
      obtain ⟨locals, code, hfilled, hplaced⟩ := hd.placed
      refine ⟨hds.symbols.trans hd.symbols,
        hd.constants.trans hds.constants, fun j hj => ?_,
        fun j e f hmem hf hname harity => ?_⟩
      · rw [List.map_cons, List.mem_cons, not_or] at hj
        obtain ⟨hne, hj⟩ := hj
        rw [hds.others j hj, hfilled, Array.getElem?_modify,
          if_neg (Ne.symm hne)]
      · rcases List.mem_cons.1 hmem with heq | hmem
        · obtain ⟨rfl, rfl⟩ := Prod.mk.inj heq
          refine ⟨{ f with locals, code }, ?_, fun hconstants hknown => ?_⟩
          · rw [hds.others j hnot, hfilled, Array.getElem?_modify,
              if_pos rfl, hf]
            rfl
          · exact hplaced (hds.constants.trans hconstants) hknown hname
              harity
        · have hne : index ≠ j := by
            rintro rfl
            exact hnot (List.mem_map.2 ⟨_, hmem, rfl⟩)
          have hf' : s₁.functions[j]? = some f := by
            rw [hfilled, Array.getElem?_modify, if_neg hne, hf]
          obtain ⟨f', hf', hfunction⟩ :=
            hds.placed j e f hmem hf' hname harity
          exact ⟨f', hf', fun hconstants hknown => hfunction hconstants
            (hd.symbols.symm ▸ hknown)⟩

-- ============================================================== programs

/-- The functions of a program that was read. -/
theorem functions_good {p : Program} (hflat : p.isFlat = true)
    (hbraced : stmtsAreBraced p.statements = true)
    (hlawful : p.isLawful = true) {d : FnDecl} (hd : d ∈ p.functions) :
    Good d := by
  obtain ⟨ss, span⟩ := p
  replace hflat : ss.all Stmt.isFlat = true := hflat
  replace hlawful : stmtsAreLawful false ss = true := hlawful
  replace hd : d ∈ ss.filterMap Stmt.function? := hd
  induction ss with
  | nil => cases hd
  | cons t ts ih =>
      rw [List.all_cons, Bool.and_eq_true_iff] at hflat
      obtain ⟨hbraced, hbraced'⟩ := Bool.and_eq_true_iff.1 hbraced
      obtain ⟨hlawful, hlawful'⟩ := Bool.and_eq_true_iff.1 hlawful
      rw [List.filterMap_cons] at hd
      cases t with
      | function e =>
          rcases List.mem_cons.1 hd with rfl | hd
          · obtain ⟨name, params, body, id⟩ := d
            obtain ⟨hdistinct, -⟩ := Bool.and_eq_true_iff.1 hlawful
            exact ⟨hflat.1, hbraced, of_decide_eq_true hdistinct⟩
          · exact ih hbraced' hflat.2 hlawful' hd
      | _ => exact ih hbraced' hflat.2 hlawful' hd

/-- The code of a program is placed as it should be. -/
theorem programCode_ok {p : Program} (hflat : p.isFlat = true)
    (hbraced : stmtsAreBraced p.statements = true)
    (hlawful : p.isLawful = true) (h : programCode p .start = .ok u s') :
    ProgramAt ⟨s'.constants.toList, s'.symbols.globals, s'.functions.toList⟩
      s'.symbols.main.block p := by
  obtain ⟨⟨bound, bodies⟩, s₁, hhoist, h₁⟩ := bind_ok.1 h
  obtain ⟨code, s₂, hcode, h₂⟩ := bind_ok.1 h₁
  obtain ⟨u₃, s₃, hfill, hbodies⟩ := bind_ok.1 h₂
  have hfilled := fill_ok hfill
  have hstart : Emission.start.symbols.AtTop := ⟨rfl, rfl⟩
  have hbinds : MakesBinds .start s₁ 0 p.functions bound bodies :=
    hoist_ok hstart hhoist
  have htop₁ := hstart.grows hbinds.symbols
  have hstmts := topLevelCode_ok hflat hbraced htop₁ hcode
  have htop₂ := htop₁.grows hstmts.growing.symbols
  have hindices : bodies.map (·.1) = List.range' 1 p.functions.length :=
    hbinds.indices
  have hgood : ∀ q ∈ bodies, Good q.2 := fun q hq =>
    functions_good hflat hbraced hlawful (hbinds.mem_of_mem_bodies hq)
  have htop₃ : s₃.symbols.AtTop := by
    rw [hfilled]
    exact htop₂
  have hmade := bodies_ok hgood htop₃ (hindices ▸ List.nodup_range') hbodies
  subst hfilled
  have hwf₁ := hbinds.symbols.wf .empty
  have hwf₂ : s₂.symbols.main.Wf :=
    htop₂.current ▸ hstmts.growing.symbols.wf hwf₁
  have hfits₂ := htop₂.fits
  have hfits₁ := hfits₂.before hstmts.growing.symbols
  have hfunctions₂ : s₂.functions.toList =
      ⟨mainName, 0, [], []⟩ :: p.functions.map reserved := by
    rw [hstmts.growing.functions, hbinds.functions]
    rfl
  have hall := At.all (bound ++ code ++ [.leave])
  rw [hmade.symbols]
  refine ⟨htop₂.taken ▸ hwf₂.nodup, fun name slot hname => ?_,
    fun k d hd => ?_, ?_⟩
  · exact hwf₂.bound slot (htop₂.taken ▸ slot_mem_of_lookup hname)
  · have hplace : 1 + k ≠ 0 := by omega
    have hreserved : (s₂.functions.modify 0 fun f =>
        { f with locals := [], code := bound ++ code ++ [.leave] })[1 + k]?
          = some (reserved d) := by
      rw [Array.getElem?_modify, if_neg hplace.symm,
        ← Array.getElem?_toList, hfunctions₂, Nat.add_comm,
        List.getElem?_cons_succ, List.getElem?_map, hd]
      rfl
    obtain ⟨f, hf, hfunction⟩ := hmade.placed (1 + k) d _
      (hbinds.mem_bodies hd) hreserved rfl rfl
    rw [Nat.add_comm] at hf
    exact ⟨f, (Array.getElem?_toList ..).trans hf,
      hfunction (List.prefix_refl _) fun _ _ hname => hname⟩
  · have hzero : 0 ∉ bodies.map (·.1) := by
      rw [hindices, List.mem_range'_1]
      omega
    have hmain : s'.functions[0]? =
        some ⟨mainName, 0, [], bound ++ code ++ [.leave]⟩ := by
      rw [hmade.others 0 hzero, Array.getElem?_modify, if_pos rfl,
        ← Array.getElem?_toList, hfunctions₂]
      rfl
    refine ⟨_, bound.length, bound.length + code.length,
      (Array.getElem?_toList ..).trans hmain, ?_, ?_, ?_⟩
    · exact .cast (hbinds.placed .empty hfits₁ hall.left.left)
        (Nat.zero_add _).symm
    · exact hstmts.placed hmade.constants hwf₁ hfits₂
        (hall.left.right.cast (Nat.zero_add _).symm)
    · refine hall.right.head ?_
      rw [List.length_append, Nat.zero_add]

end Stack

end Script
