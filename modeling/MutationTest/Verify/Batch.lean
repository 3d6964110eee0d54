import MutationTest.Batch
import MutationTest.Verify.FreshReport

/-! # Batches

A campaign that returns leaves its source as it was, so the next one works on the disk that the
script has found: the campaigns of a batch do not notice each other (`campaign_frame`), and what the
script does is what they do alone (`runBatch_eq`), in any order. -/

namespace MutationTest
open Exec

section
variable {env : Station} {s : Lot} {script : Script} {d d' : Disk} {t : Target}
  {l order order' : List Target}

@[simp] theorem setTarget_self (path : String) (w : World) : (d.setTarget path w).target path = w :=
  Function.update_self ..

theorem setTarget_of_ne {path q : String} (h : q ≠ path) (w : World) :
    (d.setTarget path w).target q = d.target q := Function.update_of_ne h ..

/-- The campaign alone ends well, and there is a report to copy. -/
def Succeeds (env : Station) (s : Lot) (d : Disk) (t : Target) : Prop :=
  (campaign env s t d).1 = .ok () ∧ (campaign env s t d).2.report ≠ none

/-- No function of the library ends an interpreter with status zero. -/
def Station.NeverExits (env : Station) : Prop :=
  ∀ sources path, (env.host sources path).NeverExits

/-- What a campaign on the disk `d` leaves, put on another disk. -/
def place (env : Station) (s : Lot) (d d' : Disk) (t : Target) : Disk where
  target := Function.update d'.target t.path (campaign env s t d).2
  out := Function.update d'.out (basename t.path) (campaign env s t d).2.report

@[simp] theorem place_target : (place env s d d' t).target =
    Function.update d'.target t.path (campaign env s t d).2 := rfl

@[simp] theorem place_out : (place env s d d' t).out =
    Function.update d'.out (basename t.path) (campaign env s t d).2.report := rfl

/-- The disk after the campaigns `l`, each of them run alone on `d`. -/
def placed (env : Station) (s : Lot) (d : Disk) (l : List Target) : Disk :=
  l.foldl (place env s d) d

/-! ## Frame -/

theorem campaign_source (h : (campaign env s t d).1 = .ok ()) :
    (campaign env s t d).2.source = (d.target t.path).source := by
  have hmain := main_triple (env.host d.sources t.path) (s.args t) (d.target t.path)
    (rfl : (d.target t.path).source = _)
  match hr : campaign env s t d with
  | (.ok _, w') => rw [← campaign, hr] at hmain; exact hmain
  | (.raised e, w') => rw [hr] at h; cases h
  | (.killed, w') => rw [hr] at h; cases h

theorem place_sources (ht : Succeeds env s d t) (h : d'.sources = d.sources) :
    (place env s d d' t).sources = d.sources := by
  funext path
  by_cases hpath : path = t.path
  · subst hpath
    rw [Disk.sources, place_target, Function.update_self]
    exact campaign_source ht.1
  · rw [Disk.sources, place_target, Function.update_of_ne hpath]
    exact congrFun h path

/-- A campaign sees the sources and its own target only. -/
theorem campaign_frame (hsources : d'.sources = d.sources)
    (htarget : d'.target t.path = d.target t.path) :
    campaign env s t d' = campaign env s t d := by
  rw [campaign, campaign, hsources, htarget]

theorem placed_sources (hl : ∀ t ∈ l, Succeeds env s d t) (h : d'.sources = d.sources) :
    (l.foldl (place env s d) d').sources = d.sources := by
  induction l generalizing d' with
  | nil => exact h
  | cons t l ih =>
    exact ih (fun u hu => hl u (List.mem_cons_of_mem t hu))
      (place_sources (hl t List.mem_cons_self) h)

theorem placed_target {path : String} (h : path ∉ l.map (·.path)) :
    (l.foldl (place env s d) d').target path = d'.target path := by
  induction l generalizing d' with
  | nil => rfl
  | cons t l ih =>
    rw [List.map_cons, List.mem_cons, not_or] at h
    rw [List.foldl_cons, ih h.2, place_target, Function.update_of_ne h.1]

theorem placed_out {name : String} (h : name ∉ l.map fun t => basename t.path) :
    (l.foldl (place env s d) d').out name = d'.out name := by
  induction l generalizing d' with
  | nil => rfl
  | cons t l ih =>
    rw [List.map_cons, List.mem_cons, not_or] at h
    rw [List.foldl_cons, ih h.2, place_out, Function.update_of_ne h.1]

/-- The copy of a report is that of its own campaign. -/
theorem placed_out_mem (hnames : (l.map fun t => basename t.path).Nodup) (ht : t ∈ l) :
    (l.foldl (place env s d) d').out (basename t.path) = (campaign env s t d).2.report := by
  induction l generalizing d' with
  | nil => cases ht
  | cons u l ih =>
    rw [List.map_cons, List.nodup_cons] at hnames
    rw [List.foldl_cons]
    rcases List.mem_cons.mp ht with rfl | ht
    · rw [placed_out hnames.1, place_out, Function.update_self]
    · exact ih hnames.2 ht

/-! ## Runs -/

theorem copyReport_none (h : (d.target t.path).report = none) :
    copyReport t d = (.raised 1, d) := by
  rw [copyReport, h]
  rfl

theorem copyReport_some {r : ReportFile} (h : (d.target t.path).report = some r) :
    copyReport t d =
      (.ok (), { d with out := Function.update d.out (basename t.path) (some r) }) := by
  rw [copyReport, h]

theorem runCampaign_ok (hsources : d'.sources = d.sources)
    (htarget : d'.target t.path = d.target t.path) (hok : (campaign env s t d).1 = .ok ()) :
    runCampaign env s t d' = (.ok (), d'.setTarget t.path (campaign env s t d).2) := by
  rw [runCampaign, campaign_frame hsources htarget, hok]
  rfl

theorem runCampaign_stops (hsources : d'.sources = d.sources)
    (htarget : d'.target t.path = d.target t.path)
    (h : exitStatus (campaign env s t d).1 ≠ some 0) (u : Unit) :
    (runCampaign env s t d').1 ≠ .ok u := by
  rw [runCampaign, campaign_frame hsources htarget]
  split <;> simp_all

theorem runCampaign_fails {code : ℤ} (hsources : d'.sources = d.sources)
    (htarget : d'.target t.path = d.target t.path)
    (h : exitStatus (campaign env s t d).1 = some code) (hcode : code ≠ 0) :
    runCampaign env s t d' = (.raised code, d'.setTarget t.path (campaign env s t d).2) := by
  rw [runCampaign, campaign_frame hsources htarget, h]
  split <;> simp_all

/-- One round of the loop, where the sources are those of `d` and the target is still to be
mutated. -/
theorem round_of_succeeds (ht : Succeeds env s d t) (hsources : d'.sources = d.sources)
    (htarget : d'.target t.path = d.target t.path) (rest : List Target) :
    runBatch env s (t :: rest) d' = runBatch env s rest (place env s d d' t) := by
  obtain ⟨r, hr⟩ := Option.ne_none_iff_exists'.mp ht.2
  rw [runBatch, bind_ok (runCampaign_ok hsources htarget ht.1),
    bind_ok (copyReport_some (r := r) ?_)]
  · rw [place, hr]
    rfl
  · rw [setTarget_self, hr]

theorem succeeds_of_round (hlibrary : env.NeverExits) (hsources : d'.sources = d.sources)
    (htarget : d'.target t.path = d.target t.path) (rest : List Target)
    (h : (runBatch env s (t :: rest) d').1 = .ok ()) : Succeeds env s d t := by
  have hstatus : exitStatus (campaign env s t d).1 = some 0 := by
    by_contra hne
    exact (bind_stopped (runCampaign_stops hsources htarget hne) _).2 () h
  have hok : (campaign env s t d).1 = .ok () := returned_of_exitStatus (hlibrary _ _) hstatus
  refine ⟨hok, fun hnone => ?_⟩
  rw [runBatch, bind_ok (runCampaign_ok hsources htarget hok),
    bind_raised (copyReport_none ?_)] at h
  · cases h
  · rw [setTarget_self, hnone]

/-- The campaigns of a batch end as they do alone, and what they leave is put together. -/
theorem runBatch_eq (hlibrary : env.NeverExits) (hpaths : (l.map (·.path)).Nodup)
    (hsources : d'.sources = d.sources) (htarget : ∀ t ∈ l, d'.target t.path = d.target t.path) :
    ((runBatch env s l d').1 = .ok () → ∀ t ∈ l, Succeeds env s d t) ∧
      ((∀ t ∈ l, Succeeds env s d t) →
        runBatch env s l d' = (.ok (), l.foldl (place env s d) d')) := by
  induction l generalizing d' with
  | nil => exact ⟨nofun, fun _ => rfl⟩
  | cons t l ih =>
    rw [List.map_cons, List.nodup_cons] at hpaths
    have hd := htarget t List.mem_cons_self
    have hrest : ∀ u ∈ l, (place env s d d' t).target u.path = d.target u.path := fun u hu => by
      have hne : u.path ≠ t.path := fun h => hpaths.1 (h ▸ List.mem_map_of_mem hu)
      rw [place_target, Function.update_of_ne hne]
      exact htarget u (List.mem_cons_of_mem t hu)
    refine ⟨fun h => ?_, fun h => ?_⟩
    · have ht := succeeds_of_round hlibrary hsources hd l h
      rw [round_of_succeeds ht hsources hd] at h
      exact List.forall_mem_cons.mpr ⟨ht, (ih hpaths.2 (place_sources ht hsources) hrest).1 h⟩
    · obtain ⟨ht, hl⟩ := List.forall_mem_cons.mp h
      rw [round_of_succeeds ht hsources hd, List.foldl_cons]
      exact (ih hpaths.2 (place_sources ht hsources) hrest).2 hl

theorem place_comm {u : Target} (hpath : t.path = u.path → t = u)
    (hname : basename t.path = basename u.path → t = u) :
    place env s d (place env s d d' t) u = place env s d (place env s d d' u) t := by
  by_cases htu : t = u
  · rw [htu]
  · rw [place, place, place, place, Function.update_comm (fun h => htu (hpath h)),
      Function.update_comm (fun h => htu (hname h))]

/-- The order does not matter to the disk. -/
theorem placed_perm (h : order.Perm script.files) :
    placed env script.toLot d order = placed env script.toLot d script.files := by
  refine h.foldl_eq' (fun t ht u hu d' => ?_) d
  have ht := h.subset ht
  have hu := h.subset hu
  exact place_comm (fun hp => List.inj_on_of_nodup_map script.paths_nodup ht hu hp)
    fun hn => List.inj_on_of_nodup_map script.names_nodup ht hu hn

theorem runBatch_perm (hlibrary : env.NeverExits) (h : order.Perm script.files) :
    ((runBatch env script.toLot order d).1 = .ok () ↔
      ∀ t ∈ script.files, Succeeds env script.toLot d t) ∧
      ((∀ t ∈ script.files, Succeeds env script.toLot d t) →
        runBatch env script.toLot order d = (.ok (), placed env script.toLot d script.files)) := by
  have hpaths : (order.map (·.path)).Nodup := (h.map _).nodup_iff.mpr script.paths_nodup
  obtain ⟨honly, hif⟩ := runBatch_eq hlibrary hpaths (rfl : d.sources = d.sources) fun _ _ => rfl
  have hrun : (∀ t ∈ script.files, Succeeds env script.toLot d t) →
      runBatch env script.toLot order d = (.ok (), placed env script.toLot d script.files) :=
    fun hall => by
    rw [hif fun t ht => hall t (h.subset ht), ← placed_perm h]
    rfl
  exact ⟨⟨fun hok t ht => honly hok t (h.symm.subset ht), fun hall => by rw [hrun hall]⟩, hrun⟩

/-- Whether a script ends well, and what it leaves, does not depend on the order in which the shell
goes through `FILES`: it ends well exactly if each campaign alone does and there is its report, and
then each copy in `OUT` is the report of the campaign of its file alone. -/
theorem any_order (env : Station) (script : Script) (d : Disk) (hlibrary : env.NeverExits)
    (horder : order.Perm script.files) (horder' : order'.Perm script.files) :
    ((runBatch env script.toLot order d).1 = .ok () ↔
      ∀ t ∈ script.files, Succeeds env script.toLot d t) ∧
      ((runBatch env script.toLot order d).1 = .ok () →
        runBatch env script.toLot order' d = runBatch env script.toLot order d ∧
        (∀ t ∈ script.files, (runBatch env script.toLot order d).2.out (basename t.path) =
          (campaign env script.toLot t d).2.report) ∧
        (runBatch env script.toLot order d).2.sources = d.sources) := by
  obtain ⟨hiff, hrun⟩ := runBatch_perm (d := d) hlibrary horder
  obtain ⟨-, hrun'⟩ := runBatch_perm (d := d) hlibrary horder'
  refine ⟨hiff, fun hok => ?_⟩
  have hall := hiff.mp hok
  rw [hrun hall, hrun' hall]
  exact ⟨rfl, fun t ht => placed_out_mem script.names_nodup ht, placed_sources hall rfl⟩

/-! ## Batches that fail -/

theorem runBatch_append (l l' : List Target) :
    runBatch env s (l ++ l') = runBatch env s l >>= fun _ => runBatch env s l' := by
  induction l with
  | nil => rfl
  | cons t l ih => rw [List.cons_append, runBatch, runBatch, ih, bind_assoc]; simp only [bind_assoc]

/-- The first campaign that fails ends the script with its status: the reports of those before it
are copied, `OUT` is otherwise as it was, and those after it do not run. -/
theorem first_failure {before after : List Target} {code : ℤ} (hlibrary : env.NeverExits)
    (horder : (before ++ t :: after).Perm script.files)
    (hbefore : ∀ u ∈ before, Succeeds env script.toLot d u)
    (hstatus : exitStatus (campaign env script.toLot t d).1 = some code) (hcode : code ≠ 0) :
    ∃ d', runBatch env script.toLot (before ++ t :: after) d = (.raised code, d') ∧
      d'.target t.path = (campaign env script.toLot t d).2 ∧
      (∀ u ∈ after, d'.target u.path = d.target u.path) ∧
      (∀ u ∈ before, d'.out (basename u.path) = (campaign env script.toLot u d).2.report) ∧
      ∀ name ∉ before.map (fun u => basename u.path), d'.out name = d.out name := by
  have hpaths : ((before ++ t :: after).map (·.path)).Nodup :=
    (horder.map _).nodup_iff.mpr script.paths_nodup
  have hnames : ((before ++ t :: after).map fun u => basename u.path).Nodup :=
    (horder.map _).nodup_iff.mpr script.names_nodup
  rw [List.map_append] at hpaths hnames
  obtain ⟨hpaths, hrest, hdisjoint⟩ := List.nodup_append.mp hpaths
  have hrun := (runBatch_eq hlibrary hpaths (rfl : d.sources = d.sources) fun _ _ => rfl).2 hbefore
  have hsources := placed_sources hbefore (rfl : d.sources = d.sources)
  have hnot : ∀ u ∈ t :: after, u.path ∉ before.map (·.path) := fun u hu hmem =>
    hdisjoint u.path hmem u.path (List.mem_map_of_mem (f := (·.path)) hu) rfl
  have htarget : (before.foldl (place env script.toLot d) d).target t.path = d.target t.path :=
    placed_target (hnot t List.mem_cons_self)
  have hfail := runCampaign_fails hsources htarget hstatus hcode
  generalize hdisk : before.foldl (place env script.toLot d) d = placed
    at hrun hsources htarget hfail
  refine ⟨placed.setTarget t.path (campaign env script.toLot t d).2, ?_, setTarget_self ..,
    fun u hu => ?_, fun u hu => ?_, fun name hname => ?_⟩
  · rw [runBatch_append, bind_ok hrun, runBatch, bind_raised hfail]
  · have hne : u.path ≠ t.path := fun h =>
      (List.nodup_cons.mp hrest).1 (List.mem_map.mpr ⟨u, hu, h⟩)
    rw [setTarget_of_ne hne, ← hdisk]
    exact placed_target (hnot u (List.mem_cons_of_mem t hu))
  · rw [Disk.setTarget, ← hdisk]
    exact placed_out_mem hnames.of_append_left hu
  · rw [Disk.setTarget, ← hdisk]
    exact placed_out hname

/-- At most the source at `path` differs from those of `S`, and then its backup has it. -/
def Kept (S : String → ByteArray) (d : Disk) : Prop :=
  ∃ path, (∀ q, q ≠ path → d.sources q = S q) ∧
    (d.sources path = S path ∨ (d.target path).backup = some (S path))

theorem Kept.of_sources {S : String → ByteArray} (h : d.sources = S) : Kept S d :=
  ⟨"", fun q _ => congrFun h q, .inl (congrFun h "")⟩

theorem runCampaign_triple {S : String → ByteArray} (hlibrary : env.NeverExits) :
    Triple (fun d => d.sources = S) (runCampaign env s t)
      ⟨fun _ d => d.sources = S, fun _ => Kept S, Kept S⟩ := by
  rintro d rfl
  have hmain := main_triple (env.host d.sources t.path) (s.args t) (d.target t.path)
    (rfl : (d.target t.path).source = d.sources t.path)
  have hframe : ∀ q, q ≠ t.path →
      (d.setTarget t.path (campaign env s t d).2).sources q = d.sources q :=
    fun q hq => congrArg World.source (setTarget_of_ne hq _)
  have hkept : Intact (d.sources t.path) (campaign env s t d).2 ∨
      Saved (d.sources t.path) (campaign env s t d).2 →
      Kept d.sources (d.setTarget t.path (campaign env s t d).2) := fun h =>
    ⟨t.path, hframe, by
      rw [Disk.sources, setTarget_self]
      exact h.imp (fun h : _ = _ => h) fun h : _ = _ => h⟩
  rw [← campaign] at hmain
  rw [runCampaign]
  match hr : campaign env s t d with
  | (.ok _, w') =>
    rw [hr] at hmain hframe
    refine funext fun q => ?_
    by_cases hq : q = t.path
    · subst hq
      exact (congrArg World.source (setTarget_self ..)).trans hmain
    · exact hframe q hq
  | (.raised e, w') =>
    rw [hr] at hmain hkept
    have hne : exitStatus (.raised e) ≠ some 0 := fun h => by
      have hstatus : exitStatus (campaign env s t d).1 = some 0 := by rw [hr]; exact h
      have hok : (campaign env s t d).1 = .ok () := returned_of_exitStatus (hlibrary _ _) hstatus
      rw [hr] at hok
      cases hok
    have hpost := hkept (hmain.imp_right And.right)
    split
    next h => exact absurd h hne
    next => exact hpost
    next => exact hpost
  | (.killed, w') =>
    rw [hr] at hmain hkept
    exact hkept hmain

/-- However a batch ends, no source is lost: all but one are as before, and where that one is not
the backup beside it has it. If the batch returns, all are as before. -/
theorem sources_kept (env : Station) (s : Lot) (d : Disk) (hlibrary : env.NeverExits)
    (order : List Target) :
    ((runBatch env s order d).1 = .ok () → (runBatch env s order d).2.sources = d.sources) ∧
      Kept d.sources (runBatch env s order d).2 := by
  have hbatch : Triple (fun d' => d'.sources = d.sources) (runBatch env s order)
      ⟨fun _ d' => d'.sources = d.sources, fun _ => Kept d.sources, Kept d.sources⟩ := by
    induction order with
    | nil => exact fun _ h => h
    | cons t rest ih =>
      refine Triple.bind (runCampaign_triple hlibrary) fun _ => Triple.bind (fun d' hd' => ?_)
        fun _ => ih
      cases hr : (d'.target t.path).report with
      | none => rw [copyReport_none hr]; exact .of_sources hd'
      | some r => rw [copyReport_some hr]; exact hd'
  have h := hbatch d rfl
  match hr : runBatch env s order d with
  | (.ok _, d') => rw [hr] at h; exact ⟨fun _ => h, .of_sources h⟩
  | (.raised e, d') => rw [hr] at h; exact ⟨nofun, h⟩
  | (.killed, d') => rw [hr] at h; exact ⟨nofun, h⟩

/-! ## Without `set -e` -/

theorem campaign_restores (hcopy : env.fault t.path .finallyCopy = none)
    (hkill : (campaign env s t d).1 ≠ .killed) :
    (campaign env s t d).2.source = (d.target t.path).source := by
  have hmain := main_triple (env.host d.sources t.path) (s.args t) (d.target t.path)
    (rfl : (d.target t.path).source = _)
  rw [← campaign] at hmain
  match hr : campaign env s t d with
  | (.ok _, w') => rw [hr] at hmain; exact hmain
  | (.raised e, w') => rw [hr] at hmain; exact hmain.resolve_right fun h => h.1 hcopy
  | (.killed, w') => rw [hr] at hkill; exact absurd rfl hkill

theorem setTarget_sources {w : World} (hw : w.source = d.sources t.path)
    (h : d'.sources = d.sources) :
    (d'.setTarget t.path w).sources = d.sources := by
  funext path
  by_cases hpath : path = t.path
  · rw [hpath, Disk.sources, setTarget_self, hw]
  · rw [Disk.sources, setTarget_of_ne hpath]
    exact congrFun h path

theorem runAll_eq (hpaths : (l.map (·.path)).Nodup)
    (hcopy : ∀ t ∈ l, env.fault t.path .finallyCopy = none)
    (hkill : ∀ t ∈ l, (campaign env s t d).1 ≠ .killed) (hsources : d'.sources = d.sources)
    (htarget : ∀ t ∈ l, d'.target t.path = d.target t.path) :
    ∃ d'', runAll env s l d' = (l.map fun t => exitStatus (campaign env s t d).1, d'') ∧
      (∀ t ∈ l, d''.target t.path = (campaign env s t d).2) ∧
      (∀ path ∉ l.map (·.path), d''.target path = d'.target path) ∧
      d''.sources = d.sources ∧ d''.out = d'.out := by
  induction l generalizing d' with
  | nil => exact ⟨d', rfl, nofun, fun _ _ => rfl, hsources, rfl⟩
  | cons t l ih =>
    rw [List.map_cons, List.nodup_cons] at hpaths
    obtain ⟨hcopy, hcopys⟩ := List.forall_mem_cons.mp hcopy
    obtain ⟨hkill, hkills⟩ := List.forall_mem_cons.mp hkill
    obtain ⟨htarget, htargets⟩ := List.forall_mem_cons.mp htarget
    have hne : ∀ u ∈ l, u.path ≠ t.path := fun u hu h => hpaths.1 (h ▸ List.mem_map_of_mem hu)
    have hrestored := setTarget_sources (campaign_restores hcopy hkill) hsources
    obtain ⟨d'', hrun, hmem, hframe, hsame, hout⟩ := ih hpaths.2 hcopys hkills hrestored
      fun u hu => (setTarget_of_ne (hne u hu) _).trans (htargets u hu)
    refine ⟨d'', ?_, List.forall_mem_cons.mpr ⟨?_, hmem⟩, fun path hpath => ?_, hsame, hout⟩
    · rw [runAll, campaign_frame hsources htarget, hrun, List.map_cons]
    · rw [hframe t.path hpaths.1, setTarget_self]
    · rw [List.map_cons, List.mem_cons, not_or] at hpath
      rw [hframe path hpath.2, setTarget_of_ne hpath.1]

/-- The script of Scrapy makes every campaign, whatever becomes of the others: unless one of them is
killed or does not get its source back, each ends, and leaves its files, as it does alone. -/
theorem goes_on (env : Station) (s : Lot) (d : Disk)
    (hcopy : ∀ t ∈ s.files, env.fault t.path .finallyCopy = none)
    (hkill : ∀ t ∈ s.files, (campaign env s t d).1 ≠ .killed) :
    (runAll env s s.files d).1 = s.files.map (fun t => exitStatus (campaign env s t d).1) ∧
      (∀ t ∈ s.files, (runAll env s s.files d).2.target t.path = (campaign env s t d).2) ∧
      (runAll env s s.files d).2.sources = d.sources := by
  obtain ⟨d', hrun, hmem, -, hsame, -⟩ := runAll_eq s.paths_nodup hcopy hkill
    (rfl : d.sources = d.sources) fun _ _ => rfl
  rw [hrun]
  exact ⟨rfl, hmem, hsame⟩

end

/-! ## An example -/

/-- The tests of `requires.py` fail. -/
def assertStation : Station where
  py := assertPy
  resolve := ("/src/" ++ ·)
  linesep := "\n"
  shell path x call sources :=
    if path = "requires.py" then .exit 1 else assertShell x call (sources path)
  fault _ _ := none

theorem assertStation_neverExits : assertStation.NeverExits := fun _ _ =>
  have hhost : (assertHost []).NeverExits := assertHost_neverExits fun _ _ _ h => nomatch h
  ⟨nofun, hhost.parse⟩

def optionsPy : Target := ⟨"options.py", 15, testCmd⟩

def requiresPy : Target := ⟨"requires.py", 15, testCmd⟩

def versionPy : Target := ⟨"version.py", 40, testCmd⟩

def assertScript : Script where
  files := [optionsPy, requiresPy, versionPy]
  paths_nodup := by decide
  names_nodup := by decide +kernel

def assertDisk : Disk := ⟨fun _ => assertWorld, fun _ => none⟩

theorem any_order_reversed :
    ((runBatch assertStation conan conan.files assertDisk).1 = .ok () ↔
        ∀ t ∈ conan.files, Succeeds assertStation conan assertDisk t) ∧
      ((runBatch assertStation conan conan.files assertDisk).1 = .ok () →
        runBatch assertStation conan conan.files.reverse assertDisk =
          runBatch assertStation conan conan.files assertDisk ∧
        (∀ t ∈ conan.files,
          (runBatch assertStation conan conan.files assertDisk).2.out (basename t.path) =
            (campaign assertStation conan t assertDisk).2.report) ∧
        (runBatch assertStation conan conan.files assertDisk).2.sources = assertDisk.sources) :=
  any_order assertStation conan assertDisk assertStation_neverExits (.refl _) (List.reverse_perm _)

/-- The second of three campaigns fails. -/
theorem first_failure_assert : ∃ d',
    runBatch assertStation assertScript ([optionsPy] ++ requiresPy :: [versionPy]) assertDisk =
        (.raised 1, d') ∧
      d'.target requiresPy.path =
        (campaign assertStation assertScript requiresPy assertDisk).2 ∧
      (∀ u ∈ [versionPy], d'.target u.path = assertDisk.target u.path) ∧
      (∀ u ∈ [optionsPy], d'.out (basename u.path) =
        (campaign assertStation assertScript u assertDisk).2.report) ∧
      ∀ name ∉ [optionsPy].map (fun u => basename u.path), d'.out name = assertDisk.out name := by
  have hbefore : ∀ u ∈ [optionsPy], Succeeds assertStation assertScript assertDisk u := by
    rintro u hu
    obtain rfl := List.mem_singleton.mp hu
    exact ⟨by decide +kernel, by decide +kernel⟩
  have hstatus : exitStatus
      (campaign assertStation assertScript requiresPy assertDisk).1 = some 1 := by decide +kernel
  exact first_failure assertStation_neverExits (.refl _) hbefore hstatus (by decide)

theorem sources_kept_assert :
    ((runBatch assertStation requests requests.files assertDisk).1 = .ok () →
        (runBatch assertStation requests requests.files assertDisk).2.sources =
          assertDisk.sources) ∧
      Kept assertDisk.sources (runBatch assertStation requests requests.files assertDisk).2 :=
  sources_kept assertStation requests assertDisk assertStation_neverExits requests.files

/-- The second campaign is refused, the others are made. -/
theorem goes_on_assert :
    (runAll assertStation assertScript assertScript.files assertDisk).1 =
        assertScript.files.map (fun t =>
          exitStatus (campaign assertStation assertScript t assertDisk).1) ∧
      (∀ t ∈ assertScript.files,
        (runAll assertStation assertScript assertScript.files assertDisk).2.target t.path =
          (campaign assertStation assertScript t assertDisk).2) ∧
      (runAll assertStation assertScript assertScript.files assertDisk).2.sources =
        assertDisk.sources :=
  goes_on assertStation assertScript assertDisk (fun _ _ => rfl) (by decide +kernel)

end MutationTest
