import JobScheduler.Acknowledge
import JobScheduler.Api.Dag
import JobScheduler.Cancellation
import JobScheduler.DelayedSet
import JobScheduler.Api.Progress
import JobScheduler.DependencyRuns
import JobScheduler.Lifecycle
import JobScheduler.Lineage
import JobScheduler.FanIn
import JobScheduler.Scheduler.DueTick
import JobScheduler.Scheduler.Polling
import JobScheduler.Scheduler.Leader
import JobScheduler.Scheduler.TickOnce
import JobScheduler.Recovery
import JobScheduler.Stranded
import JobScheduler.Worker.ReadCommitted
import JobScheduler.Api.Created
import JobScheduler.Api.Cycle
import JobScheduler.Dispatched
import JobScheduler.Duplicates
import JobScheduler.Api.Auth
import JobScheduler.Api.Edits
import JobScheduler.Api.Routes
import JobScheduler.Api.Tenants
import JobScheduler.Api.Noninterference
import JobScheduler.Tenancy
import JobScheduler.Inflight
import JobScheduler.Api.Deps
import JobScheduler.Api.Drafts
import JobScheduler.Api.Update
import JobScheduler.Migrations.Category
import JobScheduler.Worker.HttpAsync
import JobScheduler.Worker.Main
import JobScheduler.Worker.LogOrder
import JobScheduler.Worker.LogComplete
import JobScheduler.Api.Login
import JobScheduler.Worker.SharedLog
import JobScheduler.Rows
import JobScheduler.Cascade
import JobScheduler.Drain
import JobScheduler.Enqueued
import JobScheduler.History
import JobScheduler.Scheduler.Loop
import JobScheduler.Api.Sessions
import JobScheduler.Outcomes
import JobScheduler.Worker.Shutdown
import JobScheduler.Backlog
import JobScheduler.Deletion
import JobScheduler.Deployment
