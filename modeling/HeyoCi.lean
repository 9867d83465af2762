import HeyoCi.Sched.Strand
import HeyoCi.Sched.Nudge
import HeyoCi.Sched.Ship
import HeyoCi.Warm.Mutex
import HeyoCi.Warm.Leak
import HeyoCi.Submit.Scope
import HeyoCi.Submit.Prefix
import HeyoCi.Warm.Renew
import HeyoCi.Sched.Publish
import HeyoCi.Sched.Watchdog
import HeyoCi.Sched.Strategy
import HeyoCi.Steps.Masker
import HeyoCi.Steps.Run
import HeyoCi.Steps.Leak
import HeyoCi.Sched.Fate
import HeyoCi.Sched.Tracked
import HeyoCi.Sched.Confluent
import HeyoCi.Warm.Guest
import HeyoCi.Warm.Tree
import HeyoCi.Warm.Drain
import HeyoCi.Warm.Alone
import HeyoCi.Dispatch.Consume
import HeyoCi.Dispatch.Bus
import HeyoCi.Submit.Atomic
import HeyoCi.Submit.Stamp
import HeyoCi.Image.Catalog
import HeyoCi.Image.Context
import HeyoCi.Submit.Tree
import HeyoCi.Submit.Contained
import HeyoCi.Lib.Descent
import HeyoCi.Expr.Values
import HeyoCi.Expr.Tokens
import HeyoCi.Expr.Parser
import HeyoCi.Expr.Substitute
import HeyoCi.Steps.StepEnv
import HeyoCi.Expr.Condition
import HeyoCi.Steps.Reference
import HeyoCi.Workflow.File
import HeyoCi.Lib.Fresh
import HeyoCi.Plan.Keys
import HeyoCi.Plan.Build
import HeyoCi.Ids.Mint
import HeyoCi.Ids.Operations
import HeyoCi.Lib.Codec
import HeyoCi.Plan.Stored
import HeyoCi.Steps.Layers
import HeyoCi.Submit.Identity
import HeyoCi.Web.Manage
import HeyoCi.Lib.Offsets
import HeyoCi.Web.LivePage
import HeyoCi.Web.LogStream
import HeyoCi.Lib.Since
import HeyoCi.Submit.Tokens
import HeyoCi.Submit.Registry
import HeyoCi.Nats.Endpoint
import HeyoCi.Nats.Entries
import HeyoCi.Nats.Hidden
import HeyoCi.Lib.Glob
import HeyoCi.Paths.Dialect
import HeyoCi.Lib.Cycles
import HeyoCi.Workflow.Cycle
import HeyoCi.Plan.Order
import HeyoCi.Workflow.Grammar
import HeyoCi.Plan.Placement
import HeyoCi.Lib.Choice
import HeyoCi.Runners.Daemons
import HeyoCi.Dispatch.Naming
import HeyoCi.Dispatch.Fallback
import HeyoCi.Steps.Timeout
import HeyoCi.Plan.Members
import HeyoCi.Plan.Expansion
import HeyoCi.Expr.Template
import HeyoCi.Paths.Accepted
import HeyoCi.Workflow.Filter
import HeyoCi.Expr.Syntax
import HeyoCi.Expr.Numbers
import HeyoCi.Expr.Spelling
import HeyoCi.Expr.Plain
import HeyoCi.Expr.Precedence
import HeyoCi.Expr.Dotted
import HeyoCi.Expr.Literals
import HeyoCi.Expr.Format
import HeyoCi.Lib.Spans
import HeyoCi.Steps.Coverage
import HeyoCi.Lib.Dict
import HeyoCi.Submit.Resolve
import HeyoCi.Lib.Framing
import HeyoCi.Image.Hashes
import HeyoCi.Submit.Fingerprint
import HeyoCi.Image.Name
import HeyoCi.Lib.Shell
import HeyoCi.Steps.Outputs
import HeyoCi.Lib.Base64
import HeyoCi.Steps.Collect
import HeyoCi.Lib.Runs
import HeyoCi.Store.Files
import HeyoCi.Store.Logs
import HeyoCi.Web.StreamToken
import HeyoCi.Lib.Links
import HeyoCi.Submit.Extract
import HeyoCi.Steps.Deadlines
import HeyoCi.Expr.Close
import HeyoCi.Nats.RoundTrip
import HeyoCi.Lib.Lexer
import HeyoCi.Steps.Scripts
import HeyoCi.Steps.Upload
import HeyoCi.Lib.Batches
import HeyoCi.Lib.Ensure
import HeyoCi.Store.Migrations
import HeyoCi.Store.Sweeps
import HeyoCi.Store.Retention
import HeyoCi.Submit.Handover
import HeyoCi.Lib.JsonText
import HeyoCi.Submit.Client
import HeyoCi.Runners.Instances
import HeyoCi.Runners.Unordered
import HeyoCi.Runners.Tunnels
import HeyoCi.Submit.Changed
