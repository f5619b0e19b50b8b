import MerkleStore.Proofs.AppendOnly
import MerkleStore.Proofs.Durability
import MerkleStore.Proofs.WireCodec
import MerkleStore.Server

/-!
# Conversations

A server takes the messages of a client one after the other and has a reaction to each, until a
message comes that ends the conversation (`Ends`). Up to there every text holds a request that can
be answered, and what is sent are the answers to these requests in their order; signs of life
between them are passed over, and what comes after the end is never looked at (`Conversed`,
`conversation_exact`). A connection reads the store and never writes to it, whatever else is done
with the store in the meantime (`Connection.store_happenings`).
-/

namespace MerkleStore.Server

/-- The text of a message that is one. -/
def Incoming.text? : Incoming → Option String
  | text message => some message
  | binary | ping | pong | close | silence => none

/-- A message that only tells that the client is there. -/
def Incoming.isSignOfLife : Incoming → Bool
  | ping | pong => true
  | text _ | binary | close | silence => false

/-- A message that comes in time and is not longer than the server accepts. -/
def Incoming.Admitted (limit : Option Nat) : Incoming → Prop
  | text message => ∀ n, limit = some n → message.utf8ByteSize ≤ n
  | silence => False
  | binary | ping | pong | close => True

/-- The text that is sent. -/
def Reaction.text? : Reaction → Option String
  | answer reply => some reply
  | none | close | leave | drop _ => .none

/-- The messages that end a conversation. -/
inductive Ends (s : Store) : Incoming → Prop
  | close : Ends s .close
  | binary : Ends s .binary
  | unreadable {message : String} {e : Error} (hparse : Request.parse message = .error e) :
      Ends s (.text message)
  | farewell {message : String} (hparse : Request.parse message = .ok .close) :
      Ends s (.text message)
  | unanswerable {message : String} {r : Request} {e : Error}
      (hparse : Request.parse message = .ok r) (hreply : reply s r = .error e) :
      Ends s (.text message)

/-! ## One message -/

variable {s : Store} {limit : Option Nat} {m : Incoming} {ms before rest : List Incoming}

theorem any_lt_of_admitted {message : String} (hm : (Incoming.text message).Admitted limit) :
    limit.any (· < message.utf8ByteSize) = false := by
  cases limit with
  | none => rfl
  | some n => simpa using hm n rfl

/-- A request that can be answered is. -/
theorem react_of_answer {message : String} {r : Request} {a : String}
    (hm : (Incoming.text message).Admitted limit) (hparse : Request.parse message = .ok r)
    (hreply : reply s r = .ok a) : react s limit (.text message) = .answer a := by
  cases r with
  | close => cases hreply
  | root t h | nodes t h | operations t first last =>
      simp [react, any_lt_of_admitted hm, hparse, hreply]

/-- A connection is given up over a request that cannot be answered. -/
theorem react_of_error {message : String} {r : Request} {e : Error}
    (hm : (Incoming.text message).Admitted limit) (hparse : Request.parse message = .ok r)
    (hr : r ≠ .close) (hreply : reply s r = .error e) :
    ∃ e', react s limit (.text message) = .drop e' := by
  cases r with
  | close => exact absurd rfl hr
  | root t h | nodes t h | operations t first last =>
      by_cases he : e = .outOfBounds
      · subst he
        exact ⟨.protocol .handlerFailed, by simp [react, any_lt_of_admitted hm, hparse, hreply]⟩
      · exact ⟨e, by simp [react, any_lt_of_admitted hm, hparse, hreply]⟩

theorem not_ends_of_reply {message : String} {r : Request} {a : String}
    (hparse : Request.parse message = .ok r) (hreply : reply s r = .ok a) :
    ¬ Ends s (.text message) := by
  intro hends
  cases hends with
  | unreadable h =>
      rw [hparse] at h
      cases h
  | farewell h =>
      rw [hparse, Except.ok.injEq] at h
      rw [h] at hreply
      cases hreply
  | unanswerable h h' =>
      rw [hparse, Except.ok.injEq] at h
      rw [← h, hreply] at h'
      cases h'

/-- A message that is admitted ends the conversation, or is passed over, or holds a request and is
answered. -/
theorem react_cases (hm : m.Admitted limit) :
    (Ends s m ∧ (react s limit m).isLast = true) ∨
      (m.text? = none ∧ ¬ Ends s m ∧ react s limit m = .none) ∨
      ∃ message r a, m = .text message ∧ ¬ Ends s m ∧ Request.parse message = .ok r ∧
        reply s r = .ok a ∧ react s limit m = .answer a := by
  cases m with
  | silence => exact hm.elim
  | close => exact .inl ⟨.close, rfl⟩
  | binary => exact .inl ⟨.binary, rfl⟩
  | ping => exact .inr (.inl ⟨rfl, fun hends => (by cases hends), rfl⟩)
  | pong => exact .inr (.inl ⟨rfl, fun hends => (by cases hends), rfl⟩)
  | text message =>
      have hwithin := any_lt_of_admitted hm
      cases hparse : Request.parse message with
      | error e =>
          exact .inl ⟨.unreadable hparse, by simp [react, hwithin, hparse, Reaction.isLast]⟩
      | ok r =>
          by_cases hr : r = .close
          · subst hr
            exact .inl ⟨.farewell hparse, by simp [react, hwithin, hparse, Reaction.isLast]⟩
          · cases hreply : reply s r with
            | ok a =>
                exact .inr (.inr ⟨message, r, a, rfl, not_ends_of_reply hparse hreply, hparse,
                  hreply, react_of_answer hm hparse hreply⟩)
            | error e =>
                obtain ⟨e', hreact⟩ := react_of_error hm hparse hr hreply
                exact .inl ⟨.unanswerable hparse hreply, by rw [hreact]; rfl⟩

theorem text?_of_isLast {r : Reaction} (hr : r.isLast = true) : r.text? = none := by
  cases r with
  | answer reply => cases hr
  | none | close | leave | drop e => rfl

/-! ## All messages -/

/-- How messages are taken: there are those before one that ends the conversation, and there are
the requests that these hold, with their answers. -/
structure Conversed (s : Store) (limit : Option Nat) (ms before rest : List Incoming)
    (requests : List Request) (answers : List String) : Prop where
  cut : ms = before ++ rest
  goesOn : ∀ m ∈ before, ¬ Ends s m
  ends : ∀ m ∈ rest.head?, Ends s m
  parsed : (before.filterMap Incoming.text?).mapM Request.parse = .ok requests
  replied : requests.mapM (reply s) = .ok answers
  /-- There is a reaction to each message up to the one that ends the conversation, and to none
  behind it. -/
  reactions : converse s limit ms = (before ++ rest.take 1).map (react s limit)
  ended : (converse s limit ms).any Reaction.isLast = !rest.isEmpty
  sent : (converse s limit ms).filterMap Reaction.text? = answers

theorem converse_cons (hlast : (react s limit m).isLast = false) (ms : List Incoming) :
    converse s limit (m :: ms) = react s limit m :: converse s limit ms := by
  rw [converse]
  exact if_neg (by simp [hlast])

theorem converse_cons_of_isLast (hlast : (react s limit m).isLast = true) (ms : List Incoming) :
    converse s limit (m :: ms) = [react s limit m] := by
  rw [converse]
  exact if_pos hlast

namespace Conversed

variable {requests : List Request} {answers : List String}

theorem nil : Conversed s limit [] [] [] [] [] := ⟨rfl, by simp, by simp, rfl, rfl, rfl, rfl, rfl⟩

/-- Nothing behind a message that ends the conversation is looked at. -/
theorem stop (hends : Ends s m) (hlast : (react s limit m).isLast = true) (ms : List Incoming) :
    Conversed s limit (m :: ms) [] (m :: ms) [] [] where
  cut := rfl
  goesOn := by simp
  ends := by simpa using hends
  parsed := rfl
  replied := rfl
  reactions := converse_cons_of_isLast hlast ms
  ended := by rw [converse_cons_of_isLast hlast, List.any_cons, hlast, List.isEmpty_cons]; rfl
  sent := by
    rw [converse_cons_of_isLast hlast, List.filterMap_cons_none (text?_of_isLast hlast)]
    rfl

/-- A message that is passed over changes nothing about the answers. -/
theorem pass (hc : Conversed s limit ms before rest requests answers) (htext : m.text? = none)
    (hnot : ¬ Ends s m) (hreact : react s limit m = .none) :
    Conversed s limit (m :: ms) (m :: before) rest requests answers := by
  have hlast : (react s limit m).isLast = false := by rw [hreact]; rfl
  have hsilent : (react s limit m).text? = none := by rw [hreact]; rfl
  constructor
  case cut => rw [hc.cut, List.cons_append]
  case goesOn => exact List.forall_mem_cons.mpr ⟨hnot, hc.goesOn⟩
  case ends => exact hc.ends
  case parsed => rw [List.filterMap_cons_none htext, hc.parsed]
  case replied => exact hc.replied
  case reactions => rw [converse_cons hlast, hc.reactions, List.cons_append, List.map_cons]
  case ended => rw [converse_cons hlast, List.any_cons, hlast, Bool.false_or, hc.ended]
  case sent => rw [converse_cons hlast, List.filterMap_cons_none hsilent, hc.sent]

/-- The answer to a request goes in front of those to all later ones. -/
theorem answer (hc : Conversed s limit ms before rest requests answers) {message : String}
    {r : Request} {a : String} (hparse : Request.parse message = .ok r)
    (hreply : reply s r = .ok a) (hreact : react s limit (.text message) = .answer a) :
    Conversed s limit (.text message :: ms) (.text message :: before) rest (r :: requests)
      (a :: answers) := by
  have hlast : (react s limit (.text message)).isLast = false := by rw [hreact]; rfl
  have hsent : (react s limit (.text message)).text? = some a := by rw [hreact]; rfl
  have htext : (Incoming.text message).text? = some message := rfl
  constructor
  case cut => rw [hc.cut, List.cons_append]
  case goesOn => exact List.forall_mem_cons.mpr ⟨not_ends_of_reply hparse hreply, hc.goesOn⟩
  case ends => exact hc.ends
  case parsed =>
    rw [List.filterMap_cons_some htext, List.mapM_cons, hparse, hc.parsed]
    rfl
  case replied =>
    rw [List.mapM_cons, hreply, hc.replied]
    rfl
  case reactions => rw [converse_cons hlast, hc.reactions, List.cons_append, List.map_cons]
  case ended => rw [converse_cons hlast, List.any_cons, hlast, Bool.false_or, hc.ended]
  case sent => rw [converse_cons hlast, List.filterMap_cons_some hsent, hc.sent]

end Conversed

theorem exists_conversed (hms : ∀ m ∈ ms, m.Admitted limit) :
    ∃ before rest requests answers, Conversed s limit ms before rest requests answers := by
  induction ms with
  | nil => exact ⟨[], [], [], [], .nil⟩
  | cons m ms ih =>
      rw [List.forall_mem_cons] at hms
      -- what comes behind a message matters only if the conversation goes on
      rcases react_cases (s := s) hms.1 with ⟨hends, hlast⟩ | hgoesOn
      · exact ⟨_, _, _, _, .stop hends hlast ms⟩
      · obtain ⟨before, rest, requests, answers, hc⟩ := ih hms.2
        rcases hgoesOn with
          ⟨htext, hnot, hreact⟩ | ⟨message, r, a, rfl, -, hparse, hreply, hreact⟩
        · exact ⟨_, _, _, _, hc.pass htext hnot hreact⟩
        · exact ⟨_, _, _, _, hc.answer hparse hreply hreact⟩

/-- Signs of life can be left out. -/
theorem converse_filter (s : Store) (limit : Option Nat) (ms : List Incoming) :
    (converse s limit (ms.filter fun m => !m.isSignOfLife)).filterMap Reaction.text? =
      (converse s limit ms).filterMap Reaction.text? := by
  induction ms with
  | nil => rfl
  | cons m ms ih =>
      cases hm : m.isSignOfLife with
      | true =>
          have hreact : react s limit m = .none := by
            cases m with
            | ping | pong => rfl
            | text message | binary | close | silence => cases hm
          have hlast : (react s limit m).isLast = false := by rw [hreact]; rfl
          have hsilent : (react s limit m).text? = none := by rw [hreact]; rfl
          rw [List.filter_cons_of_neg (by simp [hm]), ih, converse_cons hlast,
            List.filterMap_cons_none hsilent]
      | false =>
          rw [List.filter_cons_of_pos (by simp [hm])]
          cases hlast : (react s limit m).isLast with
          | true => rw [converse_cons_of_isLast hlast, converse_cons_of_isLast hlast]
          | false =>
              rw [converse_cons hlast, converse_cons hlast, List.filterMap_cons,
                List.filterMap_cons, ih]

/-! ## Connections -/

/-- A connection under way: the store behind it, what has been done about the messages so far, and
whether the conversation is over. -/
structure Connection where
  store : Store
  reactions : List Reaction
  isOver : Bool

namespace Connection

/-- A connection that has just been opened. -/
def opened (s : Store) : Connection := ⟨s, [], false⟩

/-- The connection after a message; nothing is read from it when the conversation is over. -/
def receive (limit : Option Nat) (c : Connection) (m : Incoming) : Connection :=
  if c.isOver then c
  else
    { c with
      reactions := c.reactions ++ [react c.store limit m]
      isOver := (react c.store limit m).isLast }

/-- A message arrives, or something is done with the store by others. -/
inductive Happening
  | message (m : Incoming)
  | deed (d : Store.Deed)

def after (limit : Option Nat) (c : Connection) : Happening → Connection
  | .message m => c.receive limit m
  | .deed d => { c with store := d.after c.store }

/-- What others do with the store. -/
def Happening.deed? : Happening → Option Store.Deed
  | message _ => none
  | deed d => some d

variable {c : Connection}

theorem store_receive (limit : Option Nat) (c : Connection) (m : Incoming) :
    (c.receive limit m).store = c.store := by
  rw [receive]
  split <;> rfl

/-- A connection leaves no trace in the store: it is what others have made of it. -/
theorem store_happenings (limit : Option Nat) (c : Connection) (hs : List Happening) :
    (hs.foldl (after limit) c).store =
      (hs.filterMap Happening.deed?).foldl Store.Deed.after c.store := by
  induction hs generalizing c with
  | nil => rfl
  | cons h hs ih =>
      rw [List.foldl_cons, ih]
      cases h with
      | message m =>
          rw [List.filterMap_cons_none rfl]
          exact congrArg (List.foldl Store.Deed.after · _) (store_receive limit c m)
      | deed d => rfl

theorem foldl_receive_of_isOver (hc : c.isOver = true) (ms : List Incoming) :
    ms.foldl (receive limit) c = c := by
  induction ms with
  | nil => rfl
  | cons m ms ih =>
      have hm : c.receive limit m = c := if_pos hc
      rw [List.foldl_cons, hm, ih]

/-- The messages of a connection are taken as those of a conversation. -/
theorem foldl_receive (hc : c.isOver = false) (ms : List Incoming) :
    ms.foldl (receive limit) c =
      { c with
        reactions := c.reactions ++ converse c.store limit ms
        isOver := (converse c.store limit ms).any Reaction.isLast } := by
  induction ms generalizing c with
  | nil => simp [converse, ← hc]
  | cons m ms ih =>
      have hm : c.receive limit m =
          ⟨c.store, c.reactions ++ [react c.store limit m], (react c.store limit m).isLast⟩ :=
        if_neg (by simp [hc])
      rw [List.foldl_cons, hm]
      cases hlast : (react c.store limit m).isLast with
      | true =>
          rw [foldl_receive_of_isOver rfl, converse_cons_of_isLast hlast]
          simp [hlast]
      | false =>
          rw [ih rfl, converse_cons hlast]
          simp [hlast]

end Connection

/-- Whatever messages arrive, if they are admitted: what has been sent are the answers to the
requests in the texts before the first message that ends the conversation, in their order. Every
other message before it is passed over, nothing behind it is looked at, signs of life might as well
not have come, and the store is the same as before. -/
theorem conversation_exact (s : Store) (limit : Option Nat) {ms : List Incoming}
    (hms : ∀ m ∈ ms, m.Admitted limit) :
    ∃ before rest requests answers, Conversed s limit ms before rest requests answers ∧
      ms.foldl (Connection.receive limit) (.opened s) =
        ⟨s, (before ++ rest.take 1).map (react s limit), !rest.isEmpty⟩ ∧
      ((ms.filter fun m => !m.isSignOfLife).foldl (Connection.receive limit)
        (.opened s)).reactions.filterMap Reaction.text? = answers := by
  obtain ⟨before, rest, requests, answers, hc⟩ := exists_conversed (s := s) hms
  refine ⟨before, rest, requests, answers, hc, ?_, ?_⟩
  · rw [Connection.foldl_receive rfl, ← hc.reactions, ← hc.ended]
    rfl
  · rw [Connection.foldl_receive rfl]
    exact (converse_filter s limit ms).trans hc.sent

/-- A question between signs of life, one about operations that there are not, and the first one
once more: only the first is answered. -/
theorem conversation_of_sampleSteps :
    let leaf := Hash.terminal [1] [10]
    let root : Root := ⟨sampleTree, 1, some leaf, .pending⟩
    let question := Incoming.text (Request.root sampleTree leaf).text
    let beyond := Incoming.text (Request.operations sampleTree 0 9).text
    let ms := [.ping, question, .pong, beyond, question]
    (∀ m ∈ ms, m.Admitted (some 256)) ∧ ∃ s, run .volatile (sampleSteps.take 2) = .ok s ∧
      ∃ before rest requests answers,
        Conversed s (some 256) ms before rest requests answers ∧ rest.isEmpty = false ∧
        answers = [(Wire.RootReply.ofRoot (some root)).text] := by
  intro leaf root question beyond ms
  have hquestion : question.Admitted (some 256) := by
    rintro n ⟨rfl⟩
    decide +kernel
  have hbeyond : beyond.Admitted (some 256) := by
    rintro n ⟨rfl⟩
    decide +kernel
  have hms : ∀ m ∈ ms, m.Admitted (some 256) := by
    simp only [ms, List.forall_mem_cons]
    exact ⟨trivial, hquestion, trivial, hbeyond, hquestion, by simp⟩
  have heval : (do
      let s ← run .volatile (sampleSteps.take 2)
      let r ← s.lastRootWith sampleTree (some leaf)
      return (r, s.operations sampleTree 0 9) :
        Except Error (Option Root × Except Error (List Operation))).toOption =
      some (some root, .error (.invalidRange 0 9 1)) := by
    decide +kernel
  obtain ⟨s, hrun, heval⟩ := bind_eq_ok.mp (eq_ok_of_toOption heval)
  obtain ⟨r, hr, heval⟩ := bind_eq_ok.mp heval
  obtain ⟨hroot, hoperations⟩ : r = some root ∧
      s.operations sampleTree 0 9 = .error (.invalidRange 0 9 1) :=
    Prod.ext_iff.mp (Except.ok.inj heval)
  have hanswered := react_of_answer hquestion (Request.parse_text_root sampleTree leaf)
    (show reply s (.root sampleTree leaf) = .ok (Wire.RootReply.ofRoot (some root)).text by
      simp only [reply, hr, hroot])
  have hparse := Request.parse_text_operations sampleTree 0 9
  rw [if_pos (by decide)] at hparse
  obtain ⟨e, hdropped⟩ := react_of_error hbeyond hparse (by simp)
    (show reply s (.operations sampleTree 0 9) = .error (.invalidRange 0 9 1) by
      simp only [reply, hoperations, bind, Except.bind])
  have hconverse : converse s (some 256) ms =
      [.none, .answer (Wire.RootReply.ofRoot (some root)).text, .none, .drop e] := by
    simp only [ms, converse, question, beyond, hanswered, hdropped]
    rfl
  obtain ⟨before, rest, requests, answers, hc, -⟩ := conversation_exact s (some 256) hms
  have hended := hc.ended
  have hsent := hc.sent
  rw [hconverse] at hended hsent
  refine ⟨hms, s, hrun, before, rest, requests, answers, hc, ?_, hsent.symm⟩
  rw [← Bool.not_eq_true', ← hended]
  rfl

end MerkleStore.Server
