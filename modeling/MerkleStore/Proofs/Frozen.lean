import MerkleStore.Proofs.Apart

/-!
# Trees out of service stay as they are

Whatever is asked of a tree out of service or done to it is refused before anything else is looked
at (`Store.perform_outOfService`), what is done with other trees leaves it as it is
(`Action.Apart`), and nothing puts a tree back into service. So it keeps its history for as long as
the store is open, and to the rest of the store it might as well be in service
(`Store.frozen_of_jobs`). A replication into such a tree asks the server first: it fails for the
tree only if the server has the root, and otherwise with what the server has said
(`Replica.refusal`).
-/

namespace MerkleStore

/-! ## Jobs -/

/-- A call, or a replication from a server after other requests to it. -/
inductive Job
  | call (c : Call)
  | replicate (t : TreeId) (root : Hash) (peer : Peer) (sent : List String)

namespace Job

/-- The tree that a job names. -/
def named? : Job → Option TreeId
  | call c => c.named?
  | replicate t _ _ _ => some t

/-- Does a job. -/
def perform : Job → Action (Answer ⊕ Replica.Report)
  | call c => do return .inl (← c.perform)
  | replicate t root peer sent => fun s =>
      let (result, c) := Replica.replicate t root peer ⟨s, sent⟩
      (result.map .inr, c.store)

/-- The store after a job, whether it goes through or fails. -/
def after (s : Store) (j : Job) : Store := (j.perform s).2

/-- Jobs one after the other, with what they give. -/
def results (s : Store) : List Job → List (Job × Except Error (Answer ⊕ Replica.Report))
  | [] => []
  | j :: js => (j, (j.perform s).1) :: results (j.after s) js

variable {t u : TreeId} {j : Job}

/-- A job has nothing to do with a tree that it does not name. -/
theorem apart (hj : j.named? ≠ some t) : Action.Apart t j.perform := by
  cases j with
  | call c => exact (Action.Apart.perform hj).andThen fun _ => .done _
  | replicate u root peer sent =>
      have hne : u ≠ t := fun heq => hj (congrArg some heq)
      have hx : (Replica.replicate u root).Apart t := .replicate hne root
      constructor
      · intro s hs
        have hblind := hx.blind peer ⟨s, sent⟩ hs
        simp only [Session.takeOutOfService] at hblind
        simp only [perform, hblind]
      · exact fun s hs => hx.history peer ⟨s, sent⟩ hs
      · exact fun s hs => hx.filed peer ⟨s, sent⟩ hs

/-- Roots stay filed under their trees, whatever is done. -/
theorem filed_after {s : Store} (hs : s.state.Filed) (j : Job) : (j.after s).state.Filed := by
  obtain ⟨t, ht⟩ : ∃ t, j.named? ≠ some t := by
    by_cases heq : j.named? = some sampleTree
    · exact ⟨Store.lostTree, heq ▸ by decide⟩
    · exact ⟨sampleTree, heq⟩
  exact (apart ht).filed s hs

end Job

/-- Whether a call is refused for a tree out of service. -/
def Call.isGuarded : Call → Bool
  | .addTree _ | .ask (.hasTree _) | .ask (.isOutOfService _) => false
  | _ => true

namespace Store

/-- A store there can be: a new one, or one in a file, whatever the file holds, after transactions,
calls and replications of any kind. -/
inductive Possible : Store → Prop
  | new {s : Store} (hs : s.IsNew) : Possible s
  | opened {z : Codec} {bytes : Bytes} {s : Store} (h : ofFile z bytes = .ok s) : Possible s
  | commit {s : Store} (hs : Possible s) (tx : Transaction) : Possible (Store.commit tx s).2
  | job {s : Store} (hs : Possible s) (j : Job) : Possible (j.after s)

variable {s r : Store} {t : TreeId} {h : History}

theorem Possible.filed (hs : s.Possible) : s.state.Filed := by
  induction hs with
  | new hs => rcases hs with rfl | ⟨z, rfl⟩ <;> exact .empty
  | opened h => exact filed_of_ofFile h
  | commit _ tx ih => exact filed_commit tx _ ih
  | job _ j ih => exact j.filed_after ih

theorem Possible.foldl (hs : s.Possible) (jobs : List Job) : (jobs.foldl Job.after s).Possible := by
  induction jobs generalizing s with
  | nil => exact hs
  | cons j jobs ih => exact ih (hs.job j)

/-- Puts a tree back into service. -/
def returnToService (s : Store) (t : TreeId) : Store :=
  { s with quarantined := s.quarantined.erase t }

theorem takeOutOfService_returnToService (hout : s.isOutOfService t = true) :
    (s.returnToService t).takeOutOfService t = s := by
  have hset : (s.quarantined.erase t).insert t = s.quarantined := by
    refine Std.ExtTreeSet.ext_mem fun k => ?_
    rw [isOutOfService, Std.ExtTreeSet.contains_iff_mem] at hout
    rw [Std.ExtTreeSet.mem_insert, Std.ExtTreeSet.mem_erase, Std.LawfulEqCmp.compare_eq_iff_eq]
    constructor
    · rintro (rfl | ⟨-, hk⟩)
      · exact hout
      · exact hk
    · intro hk
      by_cases heq : t = k
      · exact .inl heq
      · exact .inr ⟨by simpa using heq, hk⟩
  simp only [takeOutOfService, returnToService, hset]

/-! ## What is refused -/

theorem servedTree_outOfService (hout : s.isOutOfService t = true) :
    s.servedTree t = .error (.quarantined t) := by
  simp only [servedTree, requireInService, hout, if_true]
  rfl

/-- Whatever is asked about a tree out of service, the answer is that it is out of service. -/
theorem answer_outOfService (hout : s.isOutOfService t = true) {q : Question}
    (hq : q.tree? = some t) (hguard : (Call.ask q).isGuarded = true) :
    q.answer s = .error (.quarantined t) := by
  have hserved := servedTree_outOfService hout
  cases q with
  | hasTree | isOutOfService => cases hguard
  | treeIds | numNodes | node | preorder => cases hq
  | latestRoot u =>
      cases hq
      simp only [Question.answer, latestRoot, hserved]
      rfl
  | latestGeneration u =>
      cases hq
      simp only [Question.answer, latestGeneration, latestRoot, hserved]
      rfl
  | root u g =>
      cases hq
      simp only [Question.answer, root, hserved]
      rfl
  | rootsBetween u first last =>
      cases hq
      simp only [Question.answer, rootsBetween, hserved]
      rfl
  | lastRootWith u top =>
      cases hq
      simp only [Question.answer, lastRootWith, hserved]
      rfl
  | terminal u key =>
      cases hq
      simp only [Question.answer, terminal, hserved]
      rfl
  | ancestors u hash =>
      cases hq
      simp only [Question.answer, ancestors, hserved]
      rfl
  | keysValues u top =>
      cases hq
      cases top <;> simp only [Question.answer, keysValues, requireRoot, lastRootWith, latestRoot,
        hserved] <;> rfl
  | operations u first last =>
      cases hq
      simp only [Question.answer, operations, hserved]
      rfl
  | diff u first last =>
      cases hq
      simp only [Question.answer, diff_eq, requireInService, hout, if_true]
      rfl

/-- Whatever is done to a tree out of service, it fails because the tree is out of service, and
nothing happens. -/
theorem perform_outOfService (hout : s.isOutOfService t = true) {c : Call}
    (hc : c.named? = some t) (hguard : c.isGuarded = true) :
    c.perform s = (.error (.quarantined t), s) := by
  have hrequire : s.requireInService t = .error (.quarantined t) := by
    rw [requireInService, if_pos hout]
  have hserved := servedTree_outOfService hout
  cases c with
  | addTree => cases hguard
  | audit => cases hc
  | insert u key value reference side =>
      cases hc
      simp only [Call.perform, insert, insertToward, bind, Action.andThen, Action.read, hrequire]
  | delete u key =>
      cases hc
      simp only [Call.perform, delete, deleteToward, bind, Action.andThen, Action.read, hrequire]
  | confirm u g =>
      cases hc
      simp only [Call.perform, confirm, root, bind, Except.bind, Action.andThen, Action.read,
        hserved]
  | replay u os =>
      cases hc
      simp only [Call.perform, replay, latestRoot, bind, Except.bind, Action.andThen, Action.read,
        hserved]
  | ask q =>
      exact congrArg (·, s) (answer_outOfService hout hc hguard)

/-- A tree that exists is not created once more. -/
theorem addTree_existing (ht : s.state.trees[t]? = some h) :
    addTree t s = (.error (.treeExists t), s) := by
  simp only [addTree, hasTree_iff.mpr ⟨h, ht⟩, if_true]

end Store

/-- Why a replication into a tree out of service fails. -/
def Replica.refusal (t : TreeId) (root : Hash) (peer : Peer) (sent : List String) : Error :=
  match peer.answer sent (.root t root) readRoot with
  | .error e => e
  | .ok none => .notFound (.remoteRoot root t)
  | .ok (some _) => .quarantined t

namespace Store

variable {s r : Store} {t : TreeId} {h : History}

/-- Nothing is learned for a tree out of service, and the store stays as it is. -/
theorem survey_outOfService (hout : s.isOutOfService t = true) (ht : s.state.trees[t]? = some h)
    (root : Hash) (peer : Peer) (sent : List String) :
    ∃ sent', Replica.survey t root peer ⟨s, sent⟩ =
      (.error (Replica.refusal t root peer sent), ⟨s, sent'⟩) := by
  have hopen (sent' : List String) :
      Replica.openCopy t peer ⟨s, sent'⟩ = (.error (.quarantined t), ⟨s, sent'⟩) := by
    rw [Replica.openCopy_eq]
    simp only [hasTree_iff.mpr ⟨h, ht⟩, if_true, latestRoot, servedTree_outOfService hout]
    rfl
  have hfetch := Replica.fetchRoot_eq t root peer ⟨s, sent⟩
  rw [Replica.survey, Replica.refusal]
  cases hanswer : peer.answer sent (.root t root) Replica.readRoot with
  | error e => exact ⟨_, Exchange.bind_error (hfetch.trans (by rw [hanswer]; rfl))⟩
  | ok found =>
      rw [Exchange.bind_ok (hfetch.trans (by rw [hanswer]))]
      cases found with
      | none => exact ⟨_, rfl⟩
      | some remote => exact ⟨_, Exchange.bind_error (hopen _)⟩

/-- A replication into a tree out of service fails and leaves the store as it is. -/
theorem replicate_outOfService (hout : s.isOutOfService t = true)
    (ht : s.state.trees[t]? = some h) (root : Hash) (peer : Peer) (sent : List String) :
    (Job.replicate t root peer sent).perform s =
      (.error (Replica.refusal t root peer sent), s) := by
  obtain ⟨sent', hsurvey⟩ := survey_outOfService hout ht root peer sent
  simp only [Job.perform, Replica.replicate_eq, Exchange.bind_error hsurvey]
  rfl

/-- A job that names a tree out of service leaves the store as it is. -/
theorem after_outOfService (hout : s.isOutOfService t = true) (ht : s.state.trees[t]? = some h)
    {j : Job} (hj : j.named? = some t) : j.after s = s := by
  cases j with
  | replicate u root peer sent =>
      cases hj
      rw [Job.after, replicate_outOfService hout ht]
  | call c =>
      have hperform : (c.perform s).2 = s := by
        cases hguard : c.isGuarded with
        | true => rw [perform_outOfService hout hj hguard]
        | false =>
            cases c with
            | addTree u =>
                cases hj
                simp only [Call.perform, bind, Action.andThen, addTree_existing ht]
            | ask q => rfl
            | insert | delete | confirm | replay | audit => cases hguard
      simp only [Job.after, Job.perform, bind, pure, Action.andThen_done, hperform]

/-! ## Trees out of service -/

/-- What a tree out of service is like: it has this history, all that names it is refused, and
whatever does not name it has the result that it has with the tree in service. -/
structure Frozen (s : Store) (t : TreeId) (h : History) : Prop where
  history : s.state.trees[t]? = some h
  known : (Question.hasTree t).answer s = .ok (.flag true)
  out : (Question.isOutOfService t).answer s = .ok (.flag true)
  created : (Call.addTree t).perform s = (.error (.treeExists t), s)
  refused : ∀ c : Call, c.named? = some t → c.isGuarded = true →
    c.perform s = (.error (.quarantined t), s)
  replicated : ∀ (root : Hash) (peer : Peer) (sent : List String),
    (Job.replicate t root peer sent).perform s = (.error (Replica.refusal t root peer sent), s)
  others : ∀ j : Job, j.named? ≠ some t → (j.perform s).1 = (j.perform (s.returnToService t)).1

theorem frozen_of_outOfService (hs : s.state.Filed) (hout : s.isOutOfService t = true)
    (ht : s.state.trees[t]? = some h) : s.Frozen t h where
  history := ht
  known := by rw [Question.answer, hasTree_iff.mpr ⟨h, ht⟩]
  out := by rw [Question.answer, hout]
  created := by simp only [Call.perform, bind, Action.andThen, addTree_existing ht]
  refused := fun _ => perform_outOfService hout
  replicated := replicate_outOfService hout ht
  others := by
    intro j hj
    have hblind := (Job.apart hj).blind (s.returnToService t) hs
    rw [takeOutOfService_returnToService hout] at hblind
    rw [hblind]

/-- Jobs while a tree is out of service do what those of them that do not name it do while it is in
service. -/
theorem jobs_outOfService (hr : r.state.Filed) (ht : r.state.trees[t]? = some h)
    (jobs : List Job) :
    let others := jobs.filter (·.named? != some t)
    jobs.foldl Job.after (r.takeOutOfService t) = (others.foldl Job.after r).takeOutOfService t ∧
      (others.foldl Job.after r).state.trees[t]? = some h ∧
      (Job.results (r.takeOutOfService t) jobs).filter (·.1.named? != some t) =
        Job.results r others := by
  induction jobs generalizing r with
  | nil => exact ⟨rfl, ht, rfl⟩
  | cons j jobs ih =>
      by_cases hj : j.named? = some t
      · have hsame : j.after (r.takeOutOfService t) = r.takeOutOfService t :=
          after_outOfService (isOutOfService_takeOutOfService.mpr (.inr rfl)) ht hj
        have hdrop : (j.named? != some t) = false := by simp [hj]
        simp only [List.foldl_cons, Job.results, hsame, List.filter_cons, hdrop]
        exact ih hr ht
      · have hapart := Job.apart hj
        have hblind := hapart.blind r hr
        have hfirst : (j.perform (r.takeOutOfService t)).1 = (j.perform r).1 := by rw [hblind]
        have hafter : j.after (r.takeOutOfService t) = (j.after r).takeOutOfService t := by
          rw [Job.after, hblind, Job.after]
        have hkeep : (j.named? != some t) = true := by simp [hj]
        obtain ⟨hstore, hhistory, hresults⟩ := ih (r := j.after r) (hapart.filed r hr)
          ((hapart.history r hr).trans ht)
        simp only [List.foldl_cons, Job.results, hafter, hfirst, List.filter_cons, hkeep, if_true]
        exact ⟨hstore, hhistory, congrArg _ hresults⟩

/-- A tree that exists and is out of service stays out of service and keeps its history, whatever is
done with the store, and all that names it is refused. All other jobs give what they give, one after
the other, without those that name the tree and with the tree in service. -/
theorem frozen_of_jobs (hs : s.Possible) (hout : s.isOutOfService t = true)
    (ht : s.state.trees[t]? = some h) (jobs : List Job) :
    let others := jobs.filter (·.named? != some t)
    (jobs.foldl Job.after s).Frozen t h ∧
      (Job.results s jobs).filter (·.1.named? != some t) =
        Job.results (s.returnToService t) others ∧
      jobs.foldl Job.after s =
        (others.foldl Job.after (s.returnToService t)).takeOutOfService t := by
  obtain ⟨hstore, hhistory, hresults⟩ :=
    jobs_outOfService (r := s.returnToService t) hs.filed ht jobs
  rw [takeOutOfService_returnToService hout] at hstore hresults
  refine ⟨?_, hresults, hstore⟩
  refine frozen_of_outOfService (hs.foldl jobs).filed ?_ ?_
  · rw [hstore]
    exact isOutOfService_takeOutOfService.mpr (.inr rfl)
  · rw [hstore]
    exact hhistory

/-- A tree that an audit has taken out of service. -/
def lostStore : Store := Job.after (lostDeeds.foldl Deed.after .volatile) (.call .audit)

/-- An insertion, a replication from a server that does not know the root, and the creation of
another tree. -/
def lateJobs : List Job :=
  [.call (.insert sampleTree [1] [10] none none),
    .replicate sampleTree (.terminal [1] [10]) (.scripted ["\x7b\x7d"]) [],
    .call (.addTree ⟨.replicate 9⟩)]

theorem possible_lostStore : lostStore.Possible :=
  .job (.commit (.commit (.new (.inl rfl)) _) _) _

/-- The tree stays as it is. -/
theorem frozen_lostStore :
    ∃ h, lostStore.Possible ∧ lostStore.isOutOfService sampleTree = true ∧
      lostStore.state.trees[sampleTree]? = some h ∧
      (lateJobs.foldl Job.after lostStore).Frozen sampleTree h := by
  have hout : lostStore.isOutOfService sampleTree = true := by decide +kernel
  have hknown : lostStore.hasTree sampleTree = true := by decide +kernel
  obtain ⟨h, ht⟩ := hasTree_iff.mp hknown
  exact ⟨h, possible_lostStore, hout, ht, (frozen_of_jobs possible_lostStore hout ht lateJobs).1⟩

/-- A replication into it from a server that does not know the root does not fail because the tree
is out of service. -/
theorem unknown_root_lostStore :
    lostStore.Possible ∧ lostStore.isOutOfService sampleTree = true ∧
      lostStore.hasTree sampleTree = true ∧
      ((Job.replicate sampleTree (.terminal [1] [10]) (.scripted ["\x7b\x7d"]) []).perform
        lostStore).1 ≠ .error (.quarantined sampleTree) := by
  have hout : lostStore.isOutOfService sampleTree = true := by decide +kernel
  have hknown : lostStore.hasTree sampleTree = true := by decide +kernel
  obtain ⟨h, ht⟩ := hasTree_iff.mp hknown
  have hrefusal : Replica.refusal sampleTree (.terminal [1] [10]) (.scripted ["\x7b\x7d"]) [] =
      .notFound (.remoteRoot (.terminal [1] [10]) sampleTree) := by
    decide +kernel
  refine ⟨possible_lostStore, hout, hknown, ?_⟩
  rw [replicate_outOfService hout ht, hrefusal]
  simp

end Store

end MerkleStore
