import EventPlatform.Users.Registration

namespace EventPlatform.Users

open Interaction Prog Pool
open scoped List

section Parser

def isWSP (c : Char) : Bool := c = ' ' || c = '\t'

/-- `isVchar`: a printable character, or one beyond ASCII. -/
def isVchar (c : Char) : Bool := ('!' ≤ c && c ≤ '~') || 0x80 ≤ c.toNat

/-- `isAtext`, with dots. -/
def isAtext (c : Char) : Bool := c = '.' || (isVchar c && !"()<>[]:;@\\,\"".toList.contains c)

def skipSpace (s : List Char) : List Char := s.dropWhile isWSP

/-- The dots of an atom are checked unless `permissive` is set. -/
def consumeAtom (permissive : Bool) (s : List Char) : Option (List Char × List Char) :=
  let atom := s.takeWhile isAtext
  if atom = [] then none
  else if !permissive && (atom.head? = some '.' || ['.', '.'] <:+: atom || atom.getLast? = some '.') then none
  else some (atom, s.dropWhile isAtext)

/-- The rest of a quoted string, after its opening quote. -/
def consumeQuotedString : List Char → Option (List Char × List Char)
  | [] => none
  | '"' :: s => some ([], s)
  | '\\' :: c :: s =>
    if isVchar c || isWSP c then (consumeQuotedString s).map fun (text, s) ↦ (c :: text, s) else none
  | c :: s =>
    if c ≠ '\\' && (isVchar c || isWSP c) then (consumeQuotedString s).map fun (text, s) ↦ (c :: text, s) else none

def consumeAddrSpec (s : List Char) : Option (List Char × List Char) := do
  let s := skipSpace s
  let (localPart, s) ←
    if s.head? = some '"' then (consumeQuotedString s.tail).filter fun (text, _) ↦ text ≠ [] else consumeAtom false s
  if s.head? = some '@' then
    let (domain, s) ← consumeAtom false (skipSpace s.tail)
    return (localPart ++ '@' :: domain, s)
  else none

/-- The words up to the first place where there is none. -/
def consumePhrase : ℕ → List Char → List (List Char) × List Char
  | 0, s => ([], s)
  | fuel + 1, s =>
    let s := skipSpace s
    match if s.head? = some '"' then consumeQuotedString s.tail else consumeAtom true s with
    | none => ([], s)
    | some (word, s) =>
      let (words, s) := consumePhrase fuel s
      (word :: words, s)

/-- A mailbox is an addr-spec, or one in angle brackets after a display name. -/
def parseMailbox (s : List Char) : Option ((List Char × List Char) × List Char) :=
  match consumeAddrSpec s with
  | some (spec, s) => some (([], spec), s)
  | none =>
    let s := skipSpace s
    let (words, s) := if s.head? = some '<' then ([], s) else consumePhrase s.length s
    if s.head? = some '<' then
      match consumeAddrSpec s.tail with
      | some (spec, '>' :: s) => some ((List.intercalate [' '] words, spec), s)
      | _ => none
    else none

def parseSingleAddress (s : List Char) : Option (List Char × List Char) :=
  match parseMailbox s with
  | some (address, s) => if skipSpace s = [] then some address else none
  | none => none

/-- `mail.ParseAddress` on the mailboxes of RFC 5322 that have no comment, no encoded word and no domain literal. -/
@[reducible] def GoMail.mailbox : GoMail where
  parseAddress s :=
    match parseSingleAddress s.toList with
    | some (name, spec) => .ok (String.ofList name, String.ofList spec)
    | none => .error "mail: no address"

end Parser

section Mailboxes

variable [GoMail]

/-- The address that an email names, without its display name. -/
def addrSpec (email : String) : Option String := (GoMail.parseAddress email).toOption.map Prod.snd

theorem valid_iff {email : String} : Valid email ↔ ∃ a, addrSpec email = some a := by
  unfold Valid addrSpec
  cases GoMail.parseAddress email with
  | error e => simp [Except.isOk, Except.toBool, Except.toOption]
  | ok p => simp [Except.isOk, Except.toBool, Except.toOption]

/-- Different users have different mailboxes. -/
def OnePerMailbox (users : List User) : Prop :=
  ∀ u ∈ users, ∀ v ∈ users, u ≠ v → ∃ a b, addrSpec u.email = some a ∧ addrSpec v.email = some b ∧ a ≠ b

def Answered (p : M Outcome) : Prop := (∃ o, p = .ret o) ∨ ∃ e, p = .fail e

variable {T S : Type} {st : Store S} {keep : User → User} {tr : List (ServiceAct T S)} [DecidableEq T]
  {req : T → Request} {rest : T → M Outcome} {w : World S} {t : T} {u : User} {email : String}

/-- A user was created by a registration of its email, which by now has been answered. -/
theorem answered_of_created (h : ServiceRuns st req tr rest w) (hs : ∀ t, Settled (req t) (rest t))
    (hu : u ∈ created tr) : Valid u.email ∧ ∃ t, req t = .register u.email ∧ Answered (rest t) := by
  obtain ⟨t, v, v', ha⟩ := mem_created.mp hu
  obtain ⟨-, hv, hq, hret⟩ := finished_of_created h (hs t) ha
  exact ⟨hv, t, hq, .inl ⟨_, hret⟩⟩

omit [GoMail] [DecidableEq T] in
theorem Holds.map_email (law : st.Lawful keep) (hw : Holds st keep tr w) :
    (st.stored w.store).map User.email ~ (created tr).map User.email := by
  refine (hw.stored.map User.email).trans (.of_eq ?_)
  rw [List.map_map]
  exact List.map_congr_left fun v _ ↦ law.keep_email v

/-- A creation is refused where a user with the email has been created before. -/
theorem created_of_refused (law : st.Lawful keep) (h : ServiceRuns st req tr rest w) (hd : Distinct tr)
    {v v' : World S} {e : Err} (ha : (⟨t, v, .create u, .error e, v'⟩ : ServiceAct T S) ∈ tr) :
    u.email ∈ (created tr).map User.email := by
  obtain ⟨hemail, -⟩ | ⟨-, hx⟩ := create_act law h hd ha
  · obtain ⟨l, l', rfl⟩ := List.append_of_mem ha
    obtain ⟨_, _, hrun, -⟩ := h.made rfl
    have hbefore := ((holds law hrun hd.of_append).map_email law).mem_iff.mp hemail
    rw [created_append, List.map_append]
    exact List.mem_append_left _ hbefore
  · cases hx

/-- Once the registration of a valid email has been answered, a user with that email has been created. -/
theorem created_of_answered (law : st.Lawful keep) (h : ServiceRuns st req tr rest w) (hd : Distinct tr)
    (hq : req t = .register email) (hv : Valid email) (ha : Answered (rest t)) :
    email ∈ (created tr).map User.email := by
  have hst := stage h t
  rw [hq] at hst
  generalize hl : own t tr = l at hst
  generalize rest t = p at hst ha
  have hmem := mem_of_own hl
  cases hst with
  | invalid hinvalid => exact absurd hv hinvalid
  | valid | named | dated | created =>
    -- a call is still to come
    obtain ⟨o, ha⟩ | ⟨e, ha⟩ := ha
    · cases ha
    · cases ha
  | refused => exact created_of_refused law h hd ((hmem _).mp (List.mem_of_getLast? rfl)).1
  | announced w₁ w₂ w₃ w₄ w₅ w₆ u hv =>
    have hcreate : (⟨t, w₃, .create u, .ok (), w₄⟩ : ServiceAct T S) ∈ tr := ((hmem _).mp (by simp)).1
    exact List.mem_map_of_mem (mem_created.mpr ⟨_, _, _, hcreate⟩)

/-- The emails in the store are the valid ones among those whose registration has been answered. -/
theorem mem_emails_iff (law : st.Lawful keep) (h : ServiceRuns st req tr rest w) (hd : Distinct tr)
    (hs : ∀ t, Settled (req t) (rest t)) : email ∈ (st.stored w.store).map User.email ↔
      Valid email ∧ ∃ t, req t = .register email ∧ Answered (rest t) := by
  rw [((holds law h hd).map_email law).mem_iff]
  constructor
  · intro hemail
    obtain ⟨u, hu, rfl⟩ := List.mem_map.mp hemail
    exact answered_of_created h hs hu
  · rintro ⟨hv, t, hq, ha⟩
    exact created_of_answered law h hd hq hv ha

/-- Where every registration has been answered or not been started, there is one account for each mailbox exactly if
no two of the answered ones spelled a mailbox in different ways: emails are compared as they were sent. -/
theorem one_per_mailbox_iff {tr : List (ServiceAct T MemStore)} {w : World MemStore}
    (h : ServiceRuns MemStore.store req tr rest w) (hd : Distinct tr) (hs : ∀ t, Settled (req t) (rest t)) :
    OnePerMailbox w.store.stored ↔ ∀ t t' email email', req t = .register email → req t' = .register email' →
      Answered (rest t) → Answered (rest t') → Valid email → addrSpec email = addrSpec email' → email = email' := by
  have hstored {email : String} : email ∈ w.store.stored.map User.email ↔
      Valid email ∧ ∃ t, req t = .register email ∧ Answered (rest t) := mem_emails_iff MemStore.lawful h hd hs
  constructor
  · intro hone t t' email email' hq hq' ha ha' hv hspec
    have hv' : Valid email' := by
      rwa [valid_iff, ← hspec, ← valid_iff]
    obtain ⟨u, hu, rfl⟩ := List.mem_map.mp (hstored.mpr ⟨hv, t, hq, ha⟩)
    obtain ⟨v, hv, rfl⟩ := List.mem_map.mp (hstored.mpr ⟨hv', t', hq', ha'⟩)
    by_contra hne
    obtain ⟨a, b, ha, hb, hab⟩ := hone u hu v hv fun heq ↦ hne (congrArg _ heq)
    rw [ha, hb] at hspec
    exact hab (Option.some.inj hspec)
  · intro hspell u hu v hv hne
    obtain ⟨hvalid, t, hq, ha⟩ := hstored.mp (List.mem_map_of_mem hu)
    obtain ⟨hvalid', t', hq', ha'⟩ := hstored.mp (List.mem_map_of_mem hv)
    obtain ⟨a, hua⟩ := valid_iff.mp hvalid
    obtain ⟨b, hvb⟩ := valid_iff.mp hvalid'
    refine ⟨a, b, hua, hvb, ?_⟩
    rintro rfl
    -- a shared mailbox was spelled in one way, and the store holds no text twice
    have hemail := hspell t t' _ _ hq hq' ha ha' hvalid (hua.trans hvb.symm)
    exact hne (List.inj_on_of_nodup_map (holds MemStore.lawful h hd).emails hu hv hemail)

/-- The calls of a registration that succeeds without another request between them. -/
def registering (t : T) (w : World S) (u : User) (s : S) : List (ServiceAct T S) :=
  [⟨t, w, .newString, .ok u.id, w⟩, ⟨t, w, .now, .ok u.createdAt, w⟩, ⟨t, w, .create u, .ok (), ⟨s, w.events⟩⟩,
    ⟨t, ⟨s, w.events⟩, .publish u, .ok (), ⟨s, w.events ++ [u]⟩⟩]

theorem runs_registering (h : ServiceRuns st req tr rest w) (hrest : rest t = serve (.register u.email))
    (hv : Valid u.email) {s : S} (hs : st.create w.store u = (.ok (), s)) :
    ServiceRuns st req (tr ++ registering t w u s) (Function.update rest t (.ret (.user u))) ⟨s, w.events ++ [u]⟩ := by
  have hcreate : Serves st w (.create u) (.ok ()) ⟨s, w.events⟩ := by
    have hserves : Serves st w (.create u) (st.create w.store u).1 ⟨(st.create w.store u).2, w.events⟩ := .create w u
    rwa [hs] at hserves
  have h₁ := h.call (hrest.trans (serve_valid hv)) (.newString w u.id)
  have h₂ := h₁.call (t := t) (Function.update_self ..) (.now w u.createdAt)
  have h₃ := h₂.call (t := t) (Function.update_self ..) hcreate
  have h₄ := h₃.call (t := t) (Function.update_self ..) (.publish _ u)
  simp only [Function.update_idem, List.append_assoc] at h₄
  exact h₄

omit [GoMail] [DecidableEq T] in
theorem named_of_registering {t' : T} {v v' : World S} {id : String} {s : S}
    (h : (⟨t', v, .newString, .ok id, v'⟩ : ServiceAct T S) ∈ registering t w u s) : t' = t ∧ id = u.id := by
  simp only [registering, List.mem_cons, Act.mk.injEq, heq_eq_eq, Except.ok.injEq, reduceCtorEq, List.not_mem_nil,
    or_false, false_and, and_false, true_and] at h
  exact ⟨h.1, h.2.2.1⟩

/-- Two valid emails that differ as texts can both be registered. -/
theorem exists_both {email email' : String} (hv : Valid email) (hv' : Valid email') (hne : email ≠ email') :
    ∃ (tr : List (ServiceAct Bool MemStore)) (rest : Bool → M Outcome) (w : World MemStore),
      ServiceRuns MemStore.store (fun t ↦ .register (if t then email' else email)) tr rest w ∧ Distinct tr ∧
        (∀ t, ∃ u, rest t = .ret (.user u)) ∧ w.store.stored.map User.email ~ [email', email] := by
  have hempty : MemStore.store.stored MemStore.store.empty = [] := MemStore.lawful.empty
  obtain ⟨s, hs, hperm⟩ := MemStore.lawful.create_new MemStore.store.empty ⟨"1", email, 0⟩ (by simp [hempty])
    (by simp [hempty])
  rw [hempty] at hperm
  obtain ⟨s', hs', hperm'⟩ := MemStore.lawful.create_new s ⟨"2", email', 0⟩
    (mt (hperm.map _).mem_iff.mp (by simp)) (mt (hperm.map _).mem_iff.mp (by simpa using hne.symm))
  have h₀ : ServiceRuns MemStore.store (fun t : Bool ↦ .register (if t then email' else email)) [] _ _ := .init
  have h₁ := runs_registering (t := false) h₀ rfl hv hs
  have h₂ := runs_registering (t := true) h₁ rfl hv' hs'
  refine ⟨_, _, _, h₂, ?_, ?_, ?_⟩
  · intro t w id w' t' v v' ha hb
    obtain ha | ha := List.mem_append.mp ha
    · have hfirst : t = false ∧ id = "1" := named_of_registering ha
      obtain hb | hb := List.mem_append.mp hb
      · exact hfirst.1.trans (named_of_registering hb).1.symm
      · have hsecond : id = "2" := (named_of_registering hb).2
        exact absurd (hfirst.2.symm.trans hsecond) (by decide)
    · have hsecond : t = true ∧ id = "2" := named_of_registering ha
      obtain hb | hb := List.mem_append.mp hb
      · have hfirst : id = "1" := (named_of_registering hb).2
        exact absurd (hfirst.symm.trans hsecond.2) (by decide)
      · exact hsecond.1.trans (named_of_registering hb).1.symm
  · intro t
    cases t with
    | false => exact ⟨_, rfl⟩
    | true => exact ⟨_, rfl⟩
  · exact (hperm'.map _).trans ((hperm.map _).cons _)

end Mailboxes

theorem one_per_mailbox_iff_plain : letI := GoMail.mailbox
    ∃ (tr : List (ServiceAct Bool MemStore)) (rest : Bool → M Outcome) (w : World MemStore),
      ServiceRuns MemStore.store (fun t ↦ .register (if t then "b@x.org" else "a@x.org")) tr rest w ∧
        w.store.stored.map User.email ~ ["b@x.org", "a@x.org"] ∧ OnePerMailbox w.store.stored := by
  have hspec : @addrSpec GoMail.mailbox "a@x.org" = some "a@x.org" := by decide +kernel
  have hspec' : @addrSpec GoMail.mailbox "b@x.org" = some "b@x.org" := by decide +kernel
  let := GoMail.mailbox
  obtain ⟨tr, rest, w, hrun, hd, hret, hstored⟩ :=
    exists_both (valid_iff.mpr ⟨_, hspec⟩) (valid_iff.mpr ⟨_, hspec'⟩) (by decide)
  refine ⟨tr, rest, w, hrun, hstored, ?_⟩
  have hs (t : Bool) : Settled (.register (if t then "b@x.org" else "a@x.org")) (rest t) := by
    obtain ⟨u, hu⟩ := hret t
    exact .inr (.inl ⟨_, hu⟩)
  refine (one_per_mailbox_iff hrun hd hs).mpr ?_
  intro t t' email email' hq hq' _ _ _ hsame
  cases t <;> cases t' <;> cases hq <;> cases hq'
  · rfl
  · exact absurd (hspec.symm.trans (hsame.trans hspec')) (by decide)
  · exact absurd (hspec'.symm.trans (hsame.trans hspec)) (by decide)
  · rfl

/-- The mailbox `a@x.org` has two accounts. -/
theorem not_one_per_mailbox : letI := GoMail.mailbox
    ∃ (tr : List (ServiceAct Bool MemStore)) (rest : Bool → M Outcome) (w : World MemStore),
      ServiceRuns MemStore.store (fun t ↦ .register (if t then "A <a@x.org>" else "a@x.org")) tr rest w ∧ Distinct tr ∧
        (∀ t, ∃ u, rest t = .ret (.user u)) ∧ w.store.stored.map User.email ~ ["A <a@x.org>", "a@x.org"] ∧
        addrSpec "A <a@x.org>" = some "a@x.org" ∧ addrSpec "a@x.org" = some "a@x.org" ∧
        ¬ OnePerMailbox w.store.stored := by
  have hspec : @addrSpec GoMail.mailbox "a@x.org" = some "a@x.org" := by decide +kernel
  have hspec' : @addrSpec GoMail.mailbox "A <a@x.org>" = some "a@x.org" := by decide +kernel
  let := GoMail.mailbox
  obtain ⟨tr, rest, w, hrun, hd, hret, hstored⟩ :=
    exists_both (valid_iff.mpr ⟨_, hspec⟩) (valid_iff.mpr ⟨_, hspec'⟩) (by decide)
  refine ⟨tr, rest, w, hrun, hd, hret, hstored, hspec', hspec, ?_⟩
  intro hone
  obtain ⟨u, hu, hue⟩ := List.mem_map.mp (hstored.mem_iff.mpr List.mem_cons_self)
  obtain ⟨v, hv, hve⟩ := List.mem_map.mp (hstored.mem_iff.mpr (List.mem_cons_of_mem _ List.mem_cons_self))
  have hne : u ≠ v := by
    rintro rfl
    exact absurd (hue.symm.trans hve) (by decide)
  obtain ⟨a, b, ha, hb, hab⟩ := hone u hu v hv hne
  rw [hue] at ha
  rw [hve] at hb
  exact hab (Option.some.inj (ha.symm.trans (hspec'.trans (hspec.symm.trans hb))))

end EventPlatform.Users
